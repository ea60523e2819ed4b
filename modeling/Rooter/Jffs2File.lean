import Mathlib.Data.List.Induction
import Mathlib.Order.Basic
import Rooter.Jffs2
import Rooter.PaddedBlocks

/-!
# The nodes of an appended file

What `mtd_replace_jffs2` writes, in terms of nodes.  A `Layout` says which nodes stand in the
blocks that are finished and which in the one that is being filled; the buffer and the blocks
handed over are determined by it (`Layout.generator`).  Each helper of `jffs2.c` is an operation
on layouts: `pad(erasesize)` followed by `prep_eraseblock` begins a new block, and a node that
fits is added to the current one (`prepEraseblock_pad_node`).  So no node is cut or lost, and the
pieces of the file follow each other.
-/

namespace Rooter.Jffs2File

open List Jffs2 PaddedBlocks

/-! ### Layouts -/

structure Piece where
  version : Nat
  offset : Nat
  data : List UInt8

/-- The nodes of a file: its directory entry, and the pieces of its content. -/
inductive Node where
  | entry (version : Nat)
  | piece (p : Piece)

def Contiguous : Nat → List Piece → Prop
  | _, [] => True
  | offset, p :: pieces => p.offset = offset ∧ Contiguous (offset + p.data.length) pieces

/-- Pieces with consecutive versions that make up the content from an offset on. -/
structure MakeUp (content : List UInt8) (offset version : Nat) (pieces : List Piece) : Prop where
  contiguous : Contiguous offset pieces
  versions : pieces.map Piece.version = range' version pieces.length
  data : pieces.flatMap Piece.data = content.drop offset

theorem MakeUp.nil {content : List UInt8} {offset : Nat} (h : content.length ≤ offset)
    (version : Nat) : MakeUp content offset version [] :=
  ⟨trivial, rfl, (drop_of_length_le h).symm⟩

theorem MakeUp.cons {content data rest : List UInt8} {offset version : Nat} {pieces : List Piece}
    (hdata : content.drop offset = data ++ rest)
    (h : MakeUp content (offset + data.length) (version + 1) pieces) :
    MakeUp content offset version (⟨version, offset, data⟩ :: pieces) := by
  refine ⟨⟨rfl, h.contiguous⟩, ?_, ?_⟩
  · rw [map_cons, h.versions, length_cons, range'_succ]
  · rw [flatMap_cons, h.data, ← drop_drop, hdata, drop_left]

structure Layout where
  done : List (List Node)
  current : List Node

namespace Layout

def nodes (l : Layout) : List Node := l.done.flatten ++ l.current

def newBlock (l : Layout) : Layout := ⟨l.done ++ [l.current], []⟩

@[simp] theorem nodes_newBlock (l : Layout) : l.newBlock.nodes = l.nodes := by
  simp [nodes, newBlock]

end Layout

section Octets

variable (erasesize : Nat) (bigEndian : Bool) (file : ConfigFile) (ino : Nat)

def Node.octets : Node → List UInt8
  | .entry version => dirent bigEndian file.name 8 1 version ino
  | .piece p => inode bigEndian file ino p.version p.offset p.data ++ p.data

/-- The clean marker and nodes behind it, each filled up to a multiple of four octets. -/
def contents (nodes : List Node) : List UInt8 :=
  cleanmarker bigEndian ++ nodes.flatMap fun n => padded 4 0xff (n.octets bigEndian file ino)

def block (nodes : List Node) : List UInt8 :=
  (contents bigEndian file ino nodes).rightpad erasesize 0xff

namespace Layout

/-- The nodes of each block stand inside it, and the current block is not full. -/
structure Fits (l : Layout) : Prop where
  current : (contents bigEndian file ino l.current).length < erasesize
  done : ∀ nodes ∈ l.done, (contents bigEndian file ino nodes).length ≤ erasesize

/-- A node is put into the current block; a block that is full is finished. -/
def addNode (n : Node) (l : Layout) : Layout :=
  if (contents bigEndian file ino (l.current ++ [n])).length = erasesize then
    ⟨l.done ++ [l.current ++ [n]], []⟩
  else ⟨l.done, l.current ++ [n]⟩

def generator (l : Layout) (last : Numbers) : Generator :=
  ⟨contents bigEndian file ino l.current, l.done.map (block erasesize bigEndian file ino), last⟩

end Layout

end Octets

section Facts

variable {erasesize : Nat} {bigEndian : Bool} {file : ConfigFile} {ino : Nat} {l : Layout}
  {n : Node} {g : Generator}

@[simp] theorem length_number (width n : Nat) : (number bigEndian width n).length = width := by
  unfold number
  split <;> simp

@[simp] theorem length_header (nodetype totlen : Nat) :
    (header bigEndian nodetype totlen).length = 12 := by
  simp [header]

theorem length_dirent (name : List UInt8) (type pino version ino : Nat) :
    (dirent bigEndian name type pino version ino).length = 40 + name.length := by
  simp [dirent]
  omega

theorem length_inode (version offset : Nat) (data : List UInt8) :
    (inode bigEndian file ino version offset data).length = 68 := by
  unfold inode
  extract_lets start
  have hstart : start.length = 60 := by simp [start]
  simp only [length_append, length_number, hstart]

theorem length_cleanmarker : (cleanmarker bigEndian).length = 12 := by
  cases bigEndian <;> rfl

@[simp] theorem contents_nil : contents bigEndian file ino [] = cleanmarker bigEndian := by
  simp [contents]

theorem contents_append (nodes : List Node) (n : Node) :
    contents bigEndian file ino (nodes ++ [n]) =
      contents bigEndian file ino nodes ++ padded 4 0xff (n.octets bigEndian file ino) := by
  simp [contents]

theorem dvd_length_contents (nodes : List Node) :
    4 ∣ (contents bigEndian file ino nodes).length := by
  induction nodes using reverseRecOn with
  | nil =>
    rw [contents_nil, length_cleanmarker]
    decide
  | append_singleton nodes n ih =>
    rw [contents_append, length_append]
    exact Nat.dvd_add ih (dvd_length_padded (by decide) _)

theorem padded_contents_append (nodes : List Node) (n : Node) :
    padded 4 0xff (contents bigEndian file ino nodes ++ n.octets bigEndian file ino) =
      contents bigEndian file ino (nodes ++ [n]) := by
  rw [padded_append (dvd_length_contents nodes), contents_append]

theorem le_length_contents (nodes : List Node) :
    12 ≤ (contents bigEndian file ino nodes).length := by
  rw [contents, length_append, length_cleanmarker]
  exact Nat.le_add_right _ _

theorem nodes_addNode (n : Node) (l : Layout) :
    (l.addNode erasesize bigEndian file ino n).nodes = l.nodes ++ [n] := by
  unfold Layout.addNode
  split_ifs <;> simp [Layout.nodes]

theorem fits_newBlock (h : l.Fits erasesize bigEndian file ino) (hsize : 12 < erasesize) :
    l.newBlock.Fits erasesize bigEndian file ino := by
  refine ⟨?_, fun nodes hnodes => ?_⟩
  · rwa [Layout.newBlock, contents_nil, length_cleanmarker]
  · rcases mem_append.mp hnodes with hnodes | hnodes
    · exact h.done nodes hnodes
    · rw [mem_singleton.mp hnodes]
      exact h.current.le

theorem fits_addNode (h : l.Fits erasesize bigEndian file ino) (hsize : 12 < erasesize)
    (hroom : (contents bigEndian file ino (l.current ++ [n])).length ≤ erasesize) :
    (l.addNode erasesize bigEndian file ino n).Fits erasesize bigEndian file ino := by
  unfold Layout.addNode
  split_ifs with hfull
  · refine ⟨?_, fun nodes hnodes => ?_⟩
    · rwa [contents_nil, length_cleanmarker]
    · rcases mem_append.mp hnodes with hnodes | hnodes
      · exact h.done nodes hnodes
      · rw [mem_singleton.mp hnodes]
        exact hroom
  · exact ⟨Nat.lt_of_le_of_ne hroom hfull, h.done⟩

/-! ### The helpers on layouts -/

/-- `pad(erasesize)` fills up a block that has been begun and hands it over. -/
theorem pad_erasesize (hpos : 0 < g.buf.length) (hlt : g.buf.length < erasesize) :
    pad erasesize erasesize g =
      { g with buf := [], out := g.out ++ [g.buf.rightpad erasesize 0xff] } := by
  have hmod : g.buf.length % erasesize = g.buf.length := Nat.mod_eq_of_lt hlt
  have hlength : (g.buf ++ replicate (erasesize - g.buf.length) 0xff).length = erasesize := by
    rw [length_append, length_replicate, Nat.add_sub_cancel' hlt.le]
  have hne : ¬ (g.buf.length % erasesize = 0 ∧ g.buf.length < erasesize) := by
    omega
  rw [pad, if_neg hne]
  simp only [if_pos hlt, hmod, hlength, Nat.mod_self, if_true]
  rw [take_of_length_le hlength.le, rightpad]

/-- `pad(4)` fills up the last node, and hands the block over if that was its end. -/
theorem pad_four (h4 : 4 ∣ erasesize) (hle : g.buf.length ≤ erasesize) :
    pad erasesize 4 g =
      if (padded 4 0xff g.buf).length = erasesize then
        { g with buf := [], out := g.out ++ [padded 4 0xff g.buf] }
      else { g with buf := padded 4 0xff g.buf } := by
  have hfit := length_padded_le (a := 0xff) (by decide) h4 hle
  by_cases halign : g.buf.length % 4 = 0
  · have hpadded : padded 4 0xff g.buf = g.buf := by simp [padded, halign]
    rw [hpadded, pad]
    by_cases hlt : g.buf.length < erasesize
    · rw [if_pos ⟨halign, hlt⟩, if_neg hlt.ne]
    · have heq : g.buf.length = erasesize := by omega
      rw [if_neg fun h => hlt h.2, if_pos heq]
      simp only [if_neg hlt]
      rw [heq, Nat.mod_self, if_pos rfl, take_of_length_le heq.le]
  · have hlt : g.buf.length < erasesize := by omega
    have hpadded : padded 4 0xff g.buf =
        g.buf ++ replicate (4 - g.buf.length % 4) 0xff := by
      rw [padded, Nat.mod_eq_of_lt (by omega)]
    rw [pad, if_neg fun h => halign h.1]
    simp only [← hpadded]
    split_ifs with hzero hfull hfull
    · rw [take_of_length_le hfit]
    · refine absurd ?_ hfull
      have hbuf : g.buf.length < (padded 4 0xff g.buf).length := by
        rw [hpadded, length_append, length_replicate]
        omega
      exact Nat.le_antisymm hfit (Nat.le_of_dvd (by omega) (Nat.dvd_of_mod_eq_zero hzero))
    · exact absurd (by rw [hfull, Nat.mod_self]) hzero
    · rw [Nat.mod_eq_of_lt (by omega), take_length]

theorem prepEraseblock_of_ne_nil (h : g.buf ≠ []) :
    prepEraseblock bigEndian g = g := if_neg h

theorem contents_ne_nil (nodes : List Node) : contents bigEndian file ino nodes ≠ [] := by
  refine ne_nil_of_length_pos ?_
  have hle := @le_length_contents bigEndian file ino nodes
  omega

/-- **A new block.** -/
theorem prepEraseblock_pad (h : l.Fits erasesize bigEndian file ino) (last : Numbers) :
    prepEraseblock bigEndian (pad erasesize erasesize
        (l.generator erasesize bigEndian file ino last)) =
      l.newBlock.generator erasesize bigEndian file ino last := by
  rw [pad_erasesize (length_pos_iff.mpr (contents_ne_nil _)) h.current, prepEraseblock]
  simp [Layout.generator, Layout.newBlock, block]

/-- **A node that fits.** -/
theorem prepEraseblock_pad_node (h4 : 4 ∣ erasesize) (n : Node)
    (hroom : (contents bigEndian file ino l.current).length +
      (n.octets bigEndian file ino).length ≤ erasesize) (last : Numbers) :
    prepEraseblock bigEndian (pad erasesize 4
        { l.generator erasesize bigEndian file ino last with
          buf := contents bigEndian file ino l.current ++ n.octets bigEndian file ino }) =
      (l.addNode erasesize bigEndian file ino n).generator erasesize bigEndian file ino last := by
  have hle : (contents bigEndian file ino l.current ++ n.octets bigEndian file ino).length ≤
      erasesize := by rwa [length_append]
  rw [pad_four h4 hle]
  simp only [padded_contents_append, Layout.addNode]
  split_ifs with hfull
  · rw [prepEraseblock]
    simp [Layout.generator, block, hfull]
  · rw [prepEraseblock_of_ne_nil (contents_ne_nil _)]
    rfl

theorem addData_of_le {data : List UInt8} (h : g.buf.length + data.length ≤ erasesize) :
    addData erasesize bigEndian data g = { g with buf := g.buf ++ data } := by
  simp only [addData, if_neg (Nat.not_lt.mpr h)]

theorem contents_append_le {nodes : List Node} (h4 : 4 ∣ erasesize)
    (h : (contents bigEndian file ino nodes).length + (n.octets bigEndian file ino).length ≤
      erasesize) : (contents bigEndian file ino (nodes ++ [n])).length ≤ erasesize := by
  rw [← padded_contents_append]
  exact length_padded_le (by decide) h4 (by rwa [length_append])

theorem prepEraseblock_addData (h4 : 4 ∣ erasesize) {head data : List UInt8}
    (hn : n.octets bigEndian file ino = head ++ data)
    (hroom : (contents bigEndian file ino l.current).length +
      (n.octets bigEndian file ino).length ≤ erasesize) (last : Numbers) :
    prepEraseblock bigEndian (pad erasesize 4 (addData erasesize bigEndian data
        (addData erasesize bigEndian head (l.generator erasesize bigEndian file ino last)))) =
      (l.addNode erasesize bigEndian file ino n).generator erasesize bigEndian file ino last := by
  have hlength : (n.octets bigEndian file ino).length = head.length + data.length := by
    rw [hn, length_append]
  have hhead : (l.generator erasesize bigEndian file ino last).buf.length + head.length ≤
      erasesize := by
    simp only [Layout.generator]
    omega
  rw [addData_of_le hhead, addData_of_le, ← prepEraseblock_pad_node h4 n hroom last, hn]
  · simp [Layout.generator]
  · simp only [Layout.generator, length_append]
    omega

/-! ### The file -/

/-- The search for room ends in a block with more than 128 octets behind the 68 of a node. -/
theorem exists_room (h : l.Fits erasesize bigEndian file ino) (hsize : 208 < erasesize)
    (last : Numbers) :
    ∃ l' : Layout,
      (if room erasesize (l.generator erasesize bigEndian file ino last) ≤ 128 then
        prepEraseblock bigEndian (pad erasesize erasesize
          (l.generator erasesize bigEndian file ino last))
        else l.generator erasesize bigEndian file ino last) =
          l'.generator erasesize bigEndian file ino last ∧
      l'.Fits erasesize bigEndian file ino ∧ l'.nodes = l.nodes ∧
      (contents bigEndian file ino l'.current).length + 196 < erasesize := by
  split_ifs with hroom
  · refine ⟨l.newBlock, prepEraseblock_pad h last, fits_newBlock h (by omega), by simp, ?_⟩
    rw [Layout.newBlock, contents_nil, length_cleanmarker]
    omega
  · refine ⟨l, rfl, h, rfl, ?_⟩
    have hlt := h.current
    simp only [room, Layout.generator, sizeofInode, Nat.mod_eq_of_lt hlt] at hroom
    omega

/-- **A round of the loop of `add_file`** ends the loop at the end of the file, or else appends a
    piece. -/
theorem addPieces_succ (h4 : 4 ∣ erasesize) (hsize : 208 < erasesize)
    (hfits : l.Fits erasesize bigEndian file ino) (fuel offset : Nat) (last : Numbers) :
    ∃ l₁ : Layout, l₁.Fits erasesize bigEndian file ino ∧
      ((file.content.length ≤ offset ∧ l₁.nodes = l.nodes ∧
        addPieces erasesize bigEndian file ino (fuel + 1) offset
          (l.generator erasesize bigEndian file ino last) =
            l₁.generator erasesize bigEndian file ino last) ∨
      ∃ data rest, 0 < data.length ∧ file.content.drop offset = data ++ rest ∧
        l₁.nodes = l.nodes ++ [.piece ⟨last.version + 1, offset, data⟩] ∧
        addPieces erasesize bigEndian file ino (fuel + 1) offset
          (l.generator erasesize bigEndian file ino last) =
            addPieces erasesize bigEndian file ino fuel (offset + data.length)
              (l₁.generator erasesize bigEndian file ino
                { last with version := last.version + 1 })) := by
  obtain ⟨l₁, hl₁, hfits₁, hnodes₁, hroom₁⟩ := exists_room hfits hsize last
  have hroom : room erasesize (l₁.generator erasesize bigEndian file ino last) =
      (erasesize - (contents bigEndian file ino l₁.current).length - 68 : Nat) := by
    simp only [room, Layout.generator, sizeofInode, Nat.mod_eq_of_lt hfits₁.current]
    omega
  simp only [addPieces, hl₁, hroom, Int.toNat_natCast]
  generalize hdata : (file.content.drop offset).take
    (min (erasesize - (contents bigEndian file ino l₁.current).length - 68) 4096) = data
  by_cases hnil : data = []
  · have hlen := congrArg length (hdata.trans hnil)
    rw [length_take, length_drop, length_nil] at hlen
    exact ⟨l₁, hfits₁, .inl ⟨by omega, hnodes₁, if_pos hnil⟩⟩
  · have hlen : data.length ≤
        erasesize - (contents bigEndian file ino l₁.current).length - 68 := by
      rw [← hdata, length_take]
      omega
    have hfit : (contents bigEndian file ino l₁.current).length +
        ((Node.piece ⟨last.version + 1, offset, data⟩).octets bigEndian file ino).length ≤
          erasesize := by
      simp only [Node.octets, length_append, length_inode]
      omega
    obtain ⟨rest, hrest⟩ : ∃ rest, file.content.drop offset = data ++ rest :=
      ⟨_, by rw [← hdata, take_append_drop]⟩
    refine ⟨_, fits_addNode hfits₁ (by omega) (contents_append_le h4 hfit),
      .inr ⟨data, rest, length_pos_iff.mpr hnil, hrest, ?_, ?_⟩⟩
    · rw [nodes_addNode, hnodes₁]
    · rw [if_neg hnil]
      exact congrArg _ (prepEraseblock_addData h4 rfl hfit
        { last with version := last.version + 1 })

/-- **The loop of `add_file`** appends pieces that make up the rest of the file. -/
theorem addPieces_generator (h4 : 4 ∣ erasesize) (hsize : 208 < erasesize) (fuel : Nat) :
    ∀ {offset : Nat} {l : Layout} {last : Numbers}, l.Fits erasesize bigEndian file ino →
      file.content.length < fuel + offset →
      ∃ (l' : Layout) (pieces : List Piece),
        addPieces erasesize bigEndian file ino fuel offset
          (l.generator erasesize bigEndian file ino last) =
            l'.generator erasesize bigEndian file ino
              { last with version := last.version + pieces.length } ∧
        l'.Fits erasesize bigEndian file ino ∧ l'.nodes = l.nodes ++ pieces.map Node.piece ∧
        MakeUp file.content offset (last.version + 1) pieces := by
  induction fuel with
  | zero =>
    intro offset l last hfits hfuel
    exact ⟨l, [], rfl, hfits, by simp, .nil (by omega) _⟩
  | succ fuel ih =>
    intro offset l last hfits hfuel
    obtain ⟨l₁, hfits₁, ⟨hend, hnodes₁, hrun₁⟩ | ⟨data, rest, hpos, hdata, hnodes₁, hrun₁⟩⟩ :=
      addPieces_succ h4 hsize hfits fuel offset last
    · exact ⟨l₁, [], hrun₁, hfits₁, by simp [hnodes₁], .nil hend _⟩
    · obtain ⟨l', pieces, hrun, hfits', hnodes', hmakeUp⟩ :=
        @ih (offset + data.length) l₁ { last with version := last.version + 1 } hfits₁ (by omega)
      refine ⟨l', _ :: pieces, ?_, hfits', ?_, .cons hdata hmakeUp⟩
      · rw [hrun₁, hrun, length_cons, Nat.add_assoc, Nat.add_comm 1]
      · rw [hnodes', hnodes₁]
        simp

theorem length_octets_entry (hname : file.name.length ≤ 255) (version : Nat) :
    (contents bigEndian file ino [] ++
      Node.octets bigEndian file ino (.entry version)).length ≤ 308 := by
  rw [length_append, contents_nil, length_cleanmarker, Node.octets, length_dirent]
  omega

theorem length_contents_entry (hname : file.name.length ≤ 255) (version : Nat) :
    (contents bigEndian file ino [.entry version]).length ≤ 308 := by
  have hpadded := length_padded_le (a := 0xff) (by decide) (by decide : 4 ∣ 308)
    (@length_octets_entry bigEndian file ino hname version)
  rwa [padded_contents_append] at hpadded

theorem addDirent_generator (h4 : 4 ∣ erasesize) (hsize : 4096 ≤ erasesize)
    (hname : file.name.length ≤ 255) (last : Numbers) :
    addDirent erasesize bigEndian file.name 8 1 ⟨[], [], last⟩ =
      Layout.generator erasesize bigEndian file (last.ino + 1) ⟨[], [.entry last.version]⟩
        ⟨last.ino + 2, last.version + 1⟩ := by
  have hlength := @length_contents_entry bigEndian file (last.ino + 1) hname last.version
  have hfour := pad_four (g := ⟨_, [], ⟨last.ino + 2, last.version + 1⟩⟩) h4
    (Nat.le_trans (@length_octets_entry bigEndian file (last.ino + 1) hname last.version)
      (by omega))
  have hfull : (contents bigEndian file (last.ino + 1) ([] ++ [.entry last.version])).length ≠
      erasesize := by
    rw [nil_append]
    omega
  rw [padded_contents_append, if_neg hfull, contents_nil] at hfour
  have hpos : ¬ erasesize ≤ 0 := by omega
  simp only [addDirent, length_nil, if_neg hpos]
  exact hfour

theorem fits_entry (hsize : 4096 ≤ erasesize) (hname : file.name.length ≤ 255) (version : Nat) :
    Layout.Fits erasesize bigEndian file ino ⟨[], [.entry version]⟩ := by
  refine ⟨?_, fun nodes hnodes => absurd hnodes not_mem_nil⟩
  exact Nat.lt_of_le_of_lt (length_contents_entry hname version) (by omega)

theorem out_pad_eofMarker (h : l.Fits erasesize bigEndian file ino) (hsize : 4 < erasesize)
    (last : Numbers) :
    (pad erasesize erasesize (addData erasesize bigEndian eofMarker
        (pad erasesize erasesize (l.generator erasesize bigEndian file ino last)))).out =
      (l.done ++ [l.current]).map (block erasesize bigEndian file ino) ++
        [eofMarker.rightpad erasesize 0xff] := by
  have hflush : pad erasesize erasesize (l.generator erasesize bigEndian file ino last) =
      ⟨[], (l.done ++ [l.current]).map (block erasesize bigEndian file ino), last⟩ := by
    rw [pad_erasesize (length_pos_iff.mpr (contents_ne_nil _)) h.current]
    simp [Layout.generator, block]
  rw [hflush, addData_of_le hsize.le, pad_erasesize (by simp [eofMarker]) hsize]
  rfl

theorem length_add_le {before after : List Node}
    (h : (contents bigEndian file ino (before ++ n :: after)).length ≤ erasesize) :
    (contents bigEndian file ino before).length + (n.octets bigEndian file ino).length ≤
      erasesize := by
  refine Nat.le_trans ?_ h
  simp only [contents, padded, flatMap_append, flatMap_cons, length_append]
  omega

end Facts

def smallFile : ConfigFile where
  found := true
  opens := true
  name := [0x61]
  mode := 0x81a4
  size := 10000
  atime := 0
  ctime := 0
  mtime := 0
  content := replicate 10000 7

end Rooter.Jffs2File
