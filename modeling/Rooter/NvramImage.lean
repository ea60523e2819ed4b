import Mathlib.Algebra.Order.BigOperators.Group.List
import Mathlib.Algebra.Order.Ring.Nat
import Rooter.Nvram

/-!
# The image of the variables

`nvram_commit` writes the chains of the table one after the other, and each of them up to the
first tuple there is no room for.  `placed` lists the tuples that it writes.  The image is the
header, their texts, a zero byte, and the padding; reading it gives back the tuples, each
split at its first `=`.
-/

namespace Rooter.Nvram

open List ChainedTable Memory

/-! ### Room -/

section Room

variable {c : List (Bytes × Bytes)} {cs : List (List (Bytes × Bytes))} {room used : Nat}

def tupleSize (e : Bytes × Bytes) : Nat := e.1.length + e.2.length + 2

def sizes (l : List (Bytes × Bytes)) : Nat := (l.map tupleSize).sum

/-- The tuples of a chain that are written when `used` bytes are taken. -/
def fitting (room : Nat) : List (Bytes × Bytes) → Nat → List (Bytes × Bytes)
  | [], _ => []
  | e :: c, used =>
      if used + tupleSize e ≤ room then e :: fitting room c (used + tupleSize e) else []

def placed (room : Nat) : List (List (Bytes × Bytes)) → Nat → List (Bytes × Bytes)
  | [], _ => []
  | c :: cs, used =>
      fitting room c used ++ placed room cs (used + sizes (fitting room c used))

@[simp] theorem sizes_nil : sizes [] = 0 := rfl

@[simp] theorem sizes_cons (e : Bytes × Bytes) (l : List (Bytes × Bytes)) :
    sizes (e :: l) = tupleSize e + sizes l := rfl

@[simp] theorem sizes_append (l l' : List (Bytes × Bytes)) :
    sizes (l ++ l') = sizes l + sizes l' := by
  unfold sizes
  rw [map_append, sum_append]

theorem sizes_perm {l l' : List (Bytes × Bytes)} (h : l.Perm l') : sizes l = sizes l' :=
  (h.map tupleSize).sum_nat

theorem tupleSize_le_sizes {e : Bytes × Bytes} {l : List (Bytes × Bytes)} (h : e ∈ l) :
    tupleSize e ≤ sizes l :=
  le_sum_of_mem (mem_map_of_mem h)

theorem sizes_le_of_sublist {l l' : List (Bytes × Bytes)} (h : l.Sublist l') : sizes l ≤ sizes l' :=
  (h.map tupleSize).sum_le_sum fun _ _ => Nat.zero_le _

theorem fitting_sublist : (fitting room c used).Sublist c := by
  induction c generalizing used with
  | nil => exact Sublist.refl _
  | cons e c ih =>
    rw [fitting]
    split
    · exact ih.cons_cons e
    · exact nil_sublist _

theorem placed_sublist : (placed room cs used).Sublist cs.flatten := by
  induction cs generalizing used with
  | nil => exact Sublist.refl _
  | cons c cs ih =>
    exact fitting_sublist.append ih

theorem sizes_fitting_le (h : used ≤ room) : used + sizes (fitting room c used) ≤ room := by
  induction c generalizing used with
  | nil => exact h
  | cons e c ih =>
    rw [fitting]
    split
    next hfit =>
      have hrest := ih hfit
      rw [sizes_cons]
      omega
    · exact h

theorem sizes_placed_le (h : used ≤ room) : used + sizes (placed room cs used) ≤ room := by
  induction cs generalizing used with
  | nil => exact h
  | cons c cs ih =>
    have hrest := ih (sizes_fitting_le h (c := c))
    rw [placed, sizes_append]
    omega

theorem fitting_of_le (h : used + sizes c ≤ room) : fitting room c used = c := by
  induction c generalizing used with
  | nil => rfl
  | cons e c ih =>
    rw [sizes_cons] at h
    rw [fitting, if_pos (by omega), ih (by omega)]

theorem placed_of_le (h : used + sizes cs.flatten ≤ room) : placed room cs used = cs.flatten := by
  induction cs generalizing used with
  | nil => rfl
  | cons c cs ih =>
    rw [flatten_cons, sizes_append] at h
    rw [placed, fitting_of_le (by omega), ih (by omega), flatten_cons]

theorem fitting_add (k : Nat) : fitting (room + k) c (used + k) = fitting room c used := by
  induction c generalizing used with
  | nil => rfl
  | cons e c ih =>
    rw [fitting, fitting, Nat.add_right_comm, ih]
    simp only [Nat.add_le_add_iff_right]

theorem placed_add (k : Nat) : placed (room + k) cs (used + k) = placed room cs used := by
  induction cs generalizing used with
  | nil => rfl
  | cons c cs ih => rw [placed, placed, fitting_add, Nat.add_right_comm, ih]

/-! ### Writing the tuples -/

theorem length_line (e : Bytes × Bytes) : (line e).length = tupleSize e := by
  unfold line tupleSize
  rw [length_append, length_append, length_cons, length_singleton]
  omega

theorem length_lines (l : List (Bytes × Bytes)) : (l.flatMap line).length = sizes l := by
  induction l with
  | nil => rfl
  | cons e l ih => rw [flatMap_cons, length_append, ih, length_line, sizes_cons]

variable {stop ptr : Nat} {mem : Nat → UInt8}

theorem writeChain_eq : writeChain stop c ptr mem =
    (ptr + sizes (fitting stop c ptr), store mem ptr ((fitting stop c ptr).flatMap line)) := by
  induction c generalizing ptr mem with
  | nil => exact Prod.ext rfl store_nil.symm
  | cons e c ih =>
    have hsize : ptr + e.1.length + 1 + e.2.length + 1 = ptr + tupleSize e := by
      unfold tupleSize
      omega
    rw [writeChain, fitting, hsize]
    by_cases hfit : ptr + tupleSize e ≤ stop
    · rw [if_neg (by omega), if_pos hfit, ih, flatMap_cons, sizes_cons, ← length_line,
        ← store_store, Nat.add_assoc]
    · rw [if_pos (by omega), if_neg hfit, flatMap_nil, store_nil]
      rfl

theorem writeChains_eq : writeChains stop cs ptr mem =
    (ptr + sizes (placed stop cs ptr), store mem ptr ((placed stop cs ptr).flatMap line)) := by
  induction cs generalizing ptr mem with
  | nil => exact Prod.ext rfl store_nil.symm
  | cons c cs ih =>
    rw [writeChains, writeChain_eq, placed]
    dsimp only
    rw [ih, sizes_append, flatMap_append, ← length_lines (fitting stop c ptr), ← store_store,
      Nat.add_assoc]

end Room

/-! ### Words -/

section Word

variable {d : Device} {mem : Nat → UInt8} {i w : Nat}

theorem length_bytes (d : Device) (w : Nat) : (d.bytes w).length = 4 := by
  unfold Device.bytes
  cases d.bigEndian <;> rfl

theorem load_store_bytes (d : Device) (mem : Nat → UInt8) (i w : Nat) :
    load (store mem i (d.bytes w)) i 4 = d.bytes w := by
  have hself := @load_store_self _ mem i (d.bytes w)
  rwa [length_bytes] at hself

theorem load_store_bytes_out {j n : Nat} (h : j + n ≤ i ∨ i + 4 ≤ j) :
    load (store mem i (d.bytes w)) j n = load mem j n :=
  load_store_out (by rwa [length_bytes])

theorem word_of_load (h : load mem i 4 = d.bytes w) (hw : w < 0x100000000) : d.word mem i = w := by
  unfold Device.word Device.bytes at *
  rw [h]
  cases d.bigEndian
  · simp only [Bool.false_eq_true, if_false, map_cons, map_nil, foldr_cons,
      foldr_nil, UInt8.toNat_ofNat']
    omega
  · simp only [if_true, reverse_reverse, map_cons, map_nil, foldr_cons,
      foldr_nil, UInt8.toNat_ofNat']
    omega

end Word

/-! ### The header -/

namespace Handle

variable {d : Device}

section Header

theorem toUnsigned_lt (negative : Bool) (n : Nat) : toUnsigned negative n < 0x100000000 := by
  unfold toUnsigned
  split
  · decide
  · split
    · exact Nat.mod_lt _ (by decide)
    · omega

theorem strtoul_lt (s : Bytes) : strtoul s < 0x100000000 := toUnsigned_lt _ _

theorem headerWords_bounds (h : Handle d) : h.headerWords.1 % 0x100 = 0 ∧
    h.headerWords.1 < 0x100000000 ∧ h.headerWords.2.1 < 0x100000000 ∧
      h.headerWords.2.2 < 0x100000000 := by
  unfold headerWords
  split
  next init config refresh ncdl _ _ _ _ =>
    have hncdl := strtoul_lt ncdl
    dsimp only
    omega
  · decide

end Header

section Image

variable (h : Handle d)

/-- The bytes for the tuples: the header and two zero bytes are taken. -/
def room : Nat := d.length - h.offset - 22

def tuples : List (Bytes × Bytes) := placed h.room h.table.chains 0

def last : Nat := 20 + sizes h.tuples

def imageLen : Nat := (h.last + 5) / 4 * 4

def padded : Nat := padding (d.base + (h.offset + h.last + 1))

/-- The memory before the length and the sum are put into the header. -/
def body : Nat → UInt8 :=
  fill
    (store
      (fill
        (store
          (store
            (store (store h.mem h.offset (d.bytes magic)) (h.offset + 8)
              (d.bytes h.headerWords.1))
            (h.offset + 12) (d.bytes h.headerWords.2.1))
          (h.offset + 16) (d.bytes h.headerWords.2.2))
        (h.offset + 20) (d.length - h.offset - 20) 0xff)
      (h.offset + 20) (h.tuples.flatMap line ++ [0]))
    (h.offset + h.last + 1) h.padded 0

def imageCrc : UInt8 :=
  hndcrc8 (load h.body (h.offset + 20) (h.imageLen - 20))
    (hndcrc8 ((d.bytes 0 ++ d.bytes 0 ++ d.bytes h.headerWords.1 ++ d.bytes h.headerWords.2.1 ++
      d.bytes h.headerWords.2.2).drop 9) 0xff)

theorem tuples_eq : placed (d.length - 2) h.table.chains (h.offset + 20) = h.tuples := by
  have hspace := h.space
  have hroom : d.length - 2 = h.room + (h.offset + 20) := by
    unfold room
    omega
  have hadd : placed (h.room + (h.offset + 20)) h.table.chains (0 + h.offset + 20) = h.tuples :=
    placed_add _
  rwa [← hroom, Nat.zero_add] at hadd

theorem sizes_tuples_le : sizes h.tuples ≤ h.room := by
  have hle : 0 + sizes h.tuples ≤ h.room := sizes_placed_le (Nat.zero_le _)
  rwa [Nat.zero_add] at hle

theorem last_le : h.last + 2 ≤ d.length - h.offset := by
  have hspace := h.space
  have hle := h.sizes_tuples_le
  unfold last
  unfold room at hle
  omega

theorem image_eq : h.image =
    store (store h.body (h.offset + 4) (d.bytes h.imageLen)) (h.offset + 8)
      (d.bytes (h.headerWords.1 + h.imageCrc.toNat)) := by
  have hptr : h.offset + 20 + sizes h.tuples = h.offset + h.last := by
    unfold last
    omega
  have hlen : (h.offset + h.last + 2 - h.offset + 3) / 4 * 4 = h.imageLen := by
    unfold imageLen
    rw [show h.offset + h.last + 2 - h.offset + 3 = h.last + 5 by omega]
  have hend : ∀ mem : Nat → UInt8, store (store mem (h.offset + 20) (h.tuples.flatMap line))
      (h.offset + h.last) [0] = store mem (h.offset + 20) (h.tuples.flatMap line ++ [0]) := by
    intro mem
    rw [← store_store, length_lines, hptr]
  unfold image
  dsimp only
  rw [writeChains_eq, tuples_eq, hptr]
  rw [hend, hlen]
  have hload : load (store h.body (h.offset + 4) (d.bytes h.imageLen)) (h.offset + 20)
      (h.imageLen - 20) = load h.body (h.offset + 20) (h.imageLen - 20) :=
    load_store_bytes_out (by omega)
  unfold imageCrc
  rw [← hload]
  rfl

theorem length_data : (h.tuples.flatMap line ++ [0]).length = sizes h.tuples + 1 := by
  rw [length_append, length_lines, length_singleton]

theorem load_body {j n : Nat} (hj : j + n ≤ 20) : load h.body (h.offset + j) n =
    load (store (store (store (store h.mem h.offset (d.bytes magic)) (h.offset + 8)
      (d.bytes h.headerWords.1)) (h.offset + 12) (d.bytes h.headerWords.2.1)) (h.offset + 16)
      (d.bytes h.headerWords.2.2)) (h.offset + j) n := by
  have hlast : 20 ≤ h.last := Nat.le_add_right _ _
  unfold body
  rw [load_fill_out (by omega), load_store_out (by omega), load_fill_out (by omega)]

theorem load_image_magic : load h.image h.offset 4 = d.bytes magic := by
  rw [image_eq, load_store_bytes_out (by omega), load_store_bytes_out (by omega)]
  refine (h.load_body (j := 0) (by omega)).trans ?_
  change load _ h.offset 4 = _
  rw [load_store_bytes_out (by omega), load_store_bytes_out (by omega),
    load_store_bytes_out (by omega), load_store_bytes]

theorem load_image_len : load h.image (h.offset + 4) 4 = d.bytes h.imageLen := by
  rw [image_eq, load_store_bytes_out (by omega), load_store_bytes]

theorem load_image_crc : load h.image (h.offset + 8) 4 =
    d.bytes (h.headerWords.1 + h.imageCrc.toNat) := by
  rw [image_eq, load_store_bytes]

theorem load_image_config : load h.image (h.offset + 12) 8 =
    d.bytes h.headerWords.2.1 ++ d.bytes h.headerWords.2.2 := by
  rw [image_eq, load_store_bytes_out (by omega), load_store_bytes_out (by omega),
    h.load_body (by omega), show 8 = 4 + 4 from rfl, load_add, load_store_bytes_out (by omega),
    load_store_bytes, load_store_bytes]

theorem load_image_body {j n : Nat} (hj : h.offset + 12 ≤ j) :
    load h.image j n = load h.body j n := by
  rw [image_eq, load_store_bytes_out (by omega), load_store_bytes_out (by omega)]

theorem load_image_data : load h.image (h.offset + 20) (sizes h.tuples + 1) =
    h.tuples.flatMap line ++ [0] := by
  have hlast : h.offset + h.last + 1 = h.offset + 20 + sizes h.tuples + 1 := by
    unfold last
    omega
  rw [load_image_body _ (by omega)]
  unfold body
  rw [load_fill_out (by omega), ← length_data, load_store_self]

theorem image_of_lt {a : Nat} (ha : a < h.offset) : h.image a = h.mem a := by
  rw [image_eq, store_of_lt (by omega), store_of_lt (by omega)]
  unfold body
  rw [fill_out (by omega), store_of_lt (by omega), fill_out (by omega), store_of_lt (by omega),
    store_of_lt (by omega), store_of_lt (by omega), store_of_lt ha]

theorem image_of_ge {a : Nat} (ha : d.length ≤ a) :
    h.image a = if a < h.offset + h.last + 1 + h.padded then 0 else h.mem a := by
  have hlast := h.last_le
  have hspace := h.space
  have hbytes := length_bytes d
  have hdata : h.offset + 20 + (h.tuples.flatMap line ++ [0]).length = h.offset + h.last + 1 := by
    rw [length_data]
    unfold last
    omega
  rw [image_eq, store_of_le (by rw [hbytes]; omega), store_of_le (by rw [hbytes]; omega)]
  unfold body
  split
  next hpad => exact fill_in (by omega) hpad
  next hpad =>
    rw [fill_out (by omega), store_of_le (by omega), fill_out (by omega),
      store_of_le (by rw [hbytes]; omega), store_of_le (by rw [hbytes]; omega),
      store_of_le (by rw [hbytes]; omega), store_of_le (by rw [hbytes]; omega)]

end Image

/-! ### Reading the image -/

section Parse

/-- A tuple as it is read: split at the first `=`. -/
def split (e : Bytes × Bytes) : Bytes × Bytes :=
  ((e.1 ++ 0x3d :: e.2).takeWhile (· ≠ 0x3d), ((e.1 ++ 0x3d :: e.2).dropWhile (· ≠ 0x3d)).tail)

theorem split_of_notMem {e : Bytes × Bytes} (h : 0x3d ∉ e.1) : split e = e := by
  have hname : ∀ b ∈ e.1, decide (b ≠ 0x3d) = true := fun b hb =>
    decide_eq_true fun heq => h (heq ▸ hb)
  unfold split
  rw [takeWhile_append_of_pos hname, dropWhile_append_of_pos hname]
  simp

theorem notMem_split (e : Bytes × Bytes) : 0x3d ∉ (split e).1 := by
  intro h
  have hne := all_eq_true.mp all_takeWhile _ h
  simp at hne

theorem length_split_le (e : Bytes × Bytes) : (split e).2.length ≤ tupleSize e := by
  unfold split tupleSize
  have hdrop := dropWhile_sublist (fun b : UInt8 => b ≠ 0x3d)
    (l := e.1 ++ 0x3d :: e.2).length_le
  rw [length_append, length_cons] at hdrop
  rw [length_tail]
  omega

variable {mem : Nat → UInt8}

theorem cstring_of_load {s : Bytes} (hs : 0 ∉ s) : ∀ {n i : Nat}, s.length < n →
    load mem i (s.length + 1) = s ++ [0] → Device.cstring mem n i = some s := by
  induction s with
  | nil =>
    intro n i hn hload
    obtain ⟨n, rfl⟩ := Nat.exists_eq_succ_of_ne_zero (Nat.ne_of_gt hn)
    rw [Device.cstring, if_pos (cons.inj hload).1]
  | cons b s ih =>
    intro n i hn hload
    obtain ⟨n, rfl⟩ := Nat.exists_eq_succ_of_ne_zero (show n ≠ 0 by omega)
    rw [mem_cons, not_or] at hs
    obtain ⟨hb, hload⟩ := cons.inj hload
    rw [Device.cstring, if_neg (by rw [hb]; exact Ne.symm hs.1),
      ih hs.2 (Nat.lt_of_succ_lt_succ hn) hload, hb]
    rfl

theorem rehashLoop_eq : ∀ (l : List (Bytes × Bytes)) (n i : Nat) (h : Handle d), l.length < n →
    (∀ e ∈ l, 0 ∉ e.1 ∧ 0 ∉ e.2) → (∀ e ∈ l, tupleSize e < d.length - h.offset) →
    i + sizes l < d.length → load h.mem i (sizes l + 1) = l.flatMap line ++ [0] →
    rehashLoop n i h =
      some { h with table := (l.map split).foldl (fun t e => t.put e.1 e.2) h.table } := by
  intro l
  induction l with
  | nil =>
    intro n i h hn _ _ hi hload
    obtain ⟨n, rfl⟩ := Nat.exists_eq_succ_of_ne_zero (Nat.ne_of_gt hn)
    have hend : Device.cstring h.mem (d.length - i) i = some [] :=
      cstring_of_load not_mem_nil (by rw [sizes_nil] at hi; simp; omega) hload
    rw [rehashLoop, hend]
    rfl
  | cons e l ih =>
    intro n i h hn hstr hlt hi hload
    obtain ⟨n, rfl⟩ := Nat.exists_eq_succ_of_ne_zero (show n ≠ 0 by omega)
    rw [sizes_cons] at hi hload
    -- the text of the tuple, and what is behind it
    rw [Nat.add_assoc, load_add, flatMap_cons, append_assoc] at hload
    obtain ⟨hline, hrest⟩ := append_inj hload (by rw [length_load, length_line])
    obtain ⟨hname, hvalue⟩ := hstr e mem_cons_self ..
    have hlen : (e.1 ++ 0x3d :: e.2).length + 1 = tupleSize e := by
      rw [length_append, length_cons]
      unfold tupleSize
      omega
    have hread : Device.cstring h.mem (d.length - i) i = some (e.1 ++ 0x3d :: e.2) := by
      refine cstring_of_load ?_ (by omega) ?_
      · rw [mem_append, mem_cons, not_or, not_or]
        exact ⟨hname, by decide, hvalue⟩
      · rw [hlen, hline]
        rfl
    have hset : h.nvramSet (split e).1 (split e).2 =
        ({ h with table := h.table.put (split e).1 (split e).2 }, 0) := by
      have hfit := hlt e mem_cons_self ..
      have hle := length_split_le e
      unfold nvramSet
      rw [if_neg (by omega)]
    rw [rehashLoop, hread]
    obtain ⟨b, s, hbs⟩ := exists_cons_of_ne_nil (show e.1 ++ 0x3d :: e.2 ≠ [] by simp)
    rw [hbs]
    dsimp only
    rw [← hbs, if_pos (by simp),
      show i + (e.1 ++ 0x3d :: e.2).length + 1 = i + tupleSize e by omega]
    change rehashLoop n _ (h.nvramSet (split e).1 (split e).2).1 = _
    rw [hset]
    exact ih n (i + tupleSize e) { h with table := h.table.put (split e).1 (split e).2 }
      (by rw [length_cons] at hn; omega)
      (fun e he => hstr e (mem_cons_of_mem _ he))
      (fun e he => hlt e (mem_cons_of_mem _ he)) (by omega) hrest

/-- The handles differ in the variables of `names` at most. -/
structure SameBut (names : List Bytes) (h h' : Handle d) : Prop where
  mem : h'.mem = h.mem
  offset : h'.offset = h.offset
  get : ∀ k ∉ names, h'.nvramGet k = h.nvramGet k

theorem SameBut.trans {names names' : List Bytes} {h h' h'' : Handle d} (h₁ : SameBut names h h')
    (h₂ : SameBut names' h' h'') : SameBut (names ++ names') h h'' := by
  refine ⟨h₂.mem.trans h₁.mem, h₂.offset.trans h₁.offset, fun k hk => ?_⟩
  rw [mem_append, not_or] at hk
  exact (h₂.get k hk.2).trans (h₁.get k hk.1)

theorem sameBut_setDefault (h : Handle d) (name value : Bytes) :
    SameBut [name] h (h.setDefault name value) := by
  unfold setDefault
  split
  · exact ⟨rfl, rfl, fun _ _ => rfl⟩
  · unfold nvramSet
    split
    · exact ⟨rfl, rfl, fun _ _ => rfl⟩
    · exact ⟨rfl, rfl, fun k hk => Table.get_put_of_ne (ne_of_not_mem_cons hk)⟩

theorem sameBut_setSdram (h : Handle d) : SameBut sdramNames h h.setSdram := by
  unfold setSdram
  exact (((sameBut_setDefault h sdramInit _).trans
    (sameBut_setDefault _ sdramConfig _)).trans (sameBut_setDefault _ sdramRefresh _)).trans
    (sameBut_setDefault _ sdramNcdl _)

variable (d) in
def readBack (l : List (Bytes × Bytes)) : Table Bytes d.index :=
  (l.map split).foldl (fun t e => t.put e.1 e.2) Table.empty

/-- Reading sets the variables of the tuples, and else only those of the SDRAM. -/
theorem nvramRehash_eq {h : Handle d} {l : List (Bytes × Bytes)}
    (hstr : ∀ e ∈ l, 0 ∉ e.1 ∧ 0 ∉ e.2) (hsize : h.offset + 20 + sizes l < d.length)
    (hload : load h.mem (h.offset + 20) (sizes l + 1) = l.flatMap line ++ [0]) :
    ∃ h', h.nvramRehash = some h' ∧ h'.mem = h.mem ∧ h'.offset = h.offset ∧
      ∀ k ∉ sdramNames, h'.nvramGet k = (readBack d l).get k := by
  have hlength : l.length ≤ sizes l := by
    clear hstr hsize hload
    induction l with
    | nil => exact Nat.le_refl 0
    | cons e l ih =>
      rw [length_cons, sizes_cons]
      unfold tupleSize
      omega
  have hloop := rehashLoop_eq l d.length (h.offset + 20) { h with table := Table.empty }
    (by omega) hstr fun e he => by
      have hle := tupleSize_le_sizes he
      dsimp only
      omega hsize hload
  unfold nvramRehash
  rw [hloop]
  refine ⟨_, rfl, ?_⟩
  exact ⟨(sameBut_setSdram _).mem, (sameBut_setSdram _).offset, (sameBut_setSdram _).get⟩

end Parse

end Handle

end Rooter.Nvram
