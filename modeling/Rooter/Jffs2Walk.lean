import Rooter.Jffs2Directory
import Rooter.Walk

/-!
# Walks over the nodes of an erase block

The loops of `mtd_parse_jffs2data` (the `mtd` tool) and of `jffs2_find_file` (the splitter for
Broadcom images) go from node to node by the length that a node states, and read the fields of a
structure wherever they are.  Neither the length nor the room behind an offset is checked.  So a
loop ends if and only if it comes back to no offset, and it stays inside the buffer if and only
if the part of each node that is looked at does.
-/

namespace Rooter.Jffs2Walk

open List Jffs2 Jffs2Directory Loop Walk Relation

/-! ### Reads -/

/-- All octets of these reads, given by offsets in a node and widths, are in a buffer. -/
def Inside (ofs size : Nat) (reads : List (Nat × Nat)) : Prop :=
  ∀ r ∈ reads, ∀ i < r.2, ofs + r.1 + i < size

def extent (reads : List (Nat × Nat)) : Nat :=
  reads.foldr (fun r m => if r.2 = 0 then m else max (r.1 + r.2) m) 0

@[simp] theorem extent_nil : extent [] = 0 := rfl

theorem extent_pair (start width : Nat) (reads : List (Nat × Nat)) :
    extent ((start, width) :: reads) =
      if width = 0 then extent reads else max (start + width) (extent reads) := rfl

theorem extent_append (reads reads' : List (Nat × Nat)) :
    extent (reads ++ reads') = max (extent reads) (extent reads') := by
  induction reads with
  | nil => simp
  | cons r reads ih =>
    rw [cons_append, extent_pair, extent_pair]
    split_ifs <;> omega

theorem inside_iff {ofs size : Nat} (h : ofs ≤ size) (reads : List (Nat × Nat)) :
    Inside ofs size reads ↔ ofs + extent reads ≤ size := by
  induction reads with
  | nil => simpa [Inside] using h
  | cons r reads ih =>
    have hcons : Inside ofs size (r :: reads) ↔
        (∀ i < r.2, ofs + r.1 + i < size) ∧ Inside ofs size reads := forall_mem_cons
    rw [hcons, ih]
    change _ ↔ ofs + (if r.2 = 0 then extent reads else max (r.1 + r.2) (extent reads)) ≤ size
    by_cases hzero : r.2 = 0
    · simp [hzero]
    · rw [if_neg hzero]
      constructor
      · rintro ⟨hall, hle⟩
        have hlast := hall (r.2 - 1) (by omega)
        omega
      · intro hle
        exact ⟨fun i hi => by omega, by omega⟩

/-! ### `mtd_parse_jffs2data` -/

/-- The octets at `a` that `strncmp(a, b, n)` looks at. -/
def compared : List UInt8 → List UInt8 → Nat
  | [], _ => 0
  | _ :: _, [] => 1
  | a :: s, b :: t => if a = b then compared s t + 1 else 1

section Parse

variable (bigEndian : Bool) (dir buf : List UInt8) (behind : Nat → UInt8)

/-- What a round at an offset reads: offsets in the node, and widths. -/
def parseReads (ofs : Nat) : List (Nat × Nat) :=
  let field (start width : Nat) : Nat := readNumber bigEndian (slice buf behind (ofs + start) width)
  if ofs < buf.length then
    if field 0 2 = magicBitmask then
      if field 2 2 = nodetypeDirent then
        let names :=
          if dir ≠ [] then
            if field 12 4 = 1 then
              [(12, 4), (28, 1), (40, compared (slice buf behind (ofs + 40) (field 28 1)) dir)]
            else [(12, 4)]
          else []
        [(0, 2), (4, 4), (2, 2)] ++ names ++ [(20, 4), (16, 4)]
      else [(0, 2), (4, 4), (2, 2)]
    else [(0, 2)]
  else []

def ParseSafe (p : Parsed) : Prop :=
  Ends (parseNodeIn bigEndian dir buf behind) ⟨0, p⟩ ∧
    ∀ s, Reaches (parseNodeIn bigEndian dir buf behind) ⟨0, p⟩ s →
      Inside s.ofs buf.length (parseReads bigEndian dir buf behind s.ofs)

def parseExtent (ofs : Nat) : Nat :=
  let field (start width : Nat) : Nat := readNumber bigEndian (slice buf behind (ofs + start) width)
  if field 0 2 = magicBitmask then
    if field 2 2 = nodetypeDirent then
      if dir ≠ [] ∧ field 12 4 = 1 then
        match compared (slice buf behind (ofs + 40) (field 28 1)) dir with
        | 0 => 29
        | n + 1 => 40 + (n + 1)
      else 24
    else 8
  else 2

variable {bigEndian dir buf behind}

theorem extent_parseReads {ofs : Nat} (h : ofs < buf.length) :
    extent (parseReads bigEndian dir buf behind ofs) =
      parseExtent bigEndian dir buf behind ofs := by
  simp only [parseReads, parseExtent]
  split_ifs with hmagic htype hdir hpino hboth hboth hboth
  · cases compared (slice buf behind (ofs + 40)
        (readNumber bigEndian (slice buf behind (ofs + 28) 1))) dir with
    | zero => rfl
    | succ n =>
      simp [extent]
      omega
  · exact absurd ⟨hdir, hpino⟩ hboth
  · exact absurd hboth.2 hpino
  · rfl
  · exact absurd hboth.1 hdir
  · rfl
  · rfl
  · rfl

theorem parse_place (s s' t : DirScan) (hofs : s.ofs = s'.ofs)
    (h : Goes (parseNodeIn bigEndian dir buf behind) s t) :
    ∃ t', Goes (parseNodeIn bigEndian dir buf behind) s' t' ∧ t.ofs = t'.ofs := by
  simp only [Goes, parseNodeIn, hofs] at h ⊢
  split_ifs at h ⊢
  all_goals
    cases h
    exact ⟨_, rfl, rfl⟩

theorem parse_bound (s t : DirScan) (h : Goes (parseNodeIn bigEndian dir buf behind) s t) :
    s.ofs < buf.length := by
  simp only [Goes, parseNodeIn] at h
  split_ifs at h with hcond
  all_goals exact hcond.1

end Parse

/-! ### `jffs2_find_file` -/

def openwrtName : List UInt8 := [0x31, 0x2d, 0x6f, 0x70, 0x65, 0x6e, 0x77, 0x72, 0x74]

def strnlenReads : List UInt8 → Nat
  | [] => 0
  | a :: s => if a = 0 then 1 else strnlenReads s + 1

structure FindScan where
  blockOffs : Nat
  valid : Bool

/-- How the loop over a block ends: behind its last node, with `-EINVAL`, or with a file. -/
inductive FindResult where
  | passed (valid : Bool)
  | invalid
  | found (name : List UInt8) (len : Nat)

/-- The arguments of `jffs2_find_file` that matter for a block: the name, and whether its full
    name and the length of it are asked for. -/
structure Query where
  name : List UInt8
  outName : Bool
  outNameLen : Bool

section Find

variable (bigEndian : Bool) (query : Query) (buf : List UInt8) (behind : Nat → UInt8)

def direntValid (ofs : Nat) : Prop :=
  readNumber bigEndian (slice buf behind (ofs + 0) 2) = magicBitmask ∧
    readNumber bigEndian (slice buf behind (ofs + 2) 2) = nodetypeDirent ∧
    readNumber bigEndian (slice buf behind (ofs + 20) 4) ≠ 0 ∧
    readNumber bigEndian (slice buf behind (ofs + 32) 4) =
      (crc32 0 (slice buf behind ofs 32)).toNat

instance (ofs : Nat) : Decidable (direntValid bigEndian buf behind ofs) :=
  inferInstanceAs (Decidable (_ ∧ _ ∧ _ ∧ _))

/-- The offset behind a node, rounded up; both sums are 32-bit numbers. -/
def nextOffs (ofs : Nat) : Nat :=
  ((ofs + readNumber bigEndian (slice buf behind (ofs + 4) 4)) % 2 ^ 32 + 3) % 2 ^ 32 / 4 * 4

def findNode (s : FindScan) : Next FindScan FindResult :=
  if s.blockOffs < buf.length then
    if direntValid bigEndian buf behind s.blockOffs then
      if slice buf behind (s.blockOffs + 40) 9 = openwrtName then
        .again ⟨nextOffs bigEndian buf behind s.blockOffs, true⟩
      else if slice buf behind (s.blockOffs + 40) query.name.length = query.name then
        if s.valid then
          let nsize := readNumber bigEndian (slice buf behind (s.blockOffs + 28) 1)
          .leave (.found ((slice buf behind (s.blockOffs + 40) nsize).takeWhile (· ≠ 0)) nsize)
        else .leave .invalid
      else .again ⟨nextOffs bigEndian buf behind s.blockOffs, s.valid⟩
    else .again ⟨(s.blockOffs + 4) % 2 ^ 32, s.valid⟩
  else .leave (.passed s.valid)

/-- The reads of `jffs2_dirent_valid` for a valid entry, or one with a wrong checksum. -/
def validReads : List (Nat × Nat) := [(0, 2), (2, 2), (20, 4), (32, 4), (0, 32)]

/-- What a round reads.  `memcmp` is given as many octets as the names have. -/
def findReads (s : FindScan) : List (Nat × Nat) :=
  let field (start width : Nat) : Nat :=
    readNumber bigEndian (slice buf behind (s.blockOffs + start) width)
  if s.blockOffs < buf.length then
    if field 0 2 = magicBitmask then
      if field 2 2 = nodetypeDirent then
        if field 20 4 ≠ 0 then
          if field 32 4 = (crc32 0 (slice buf behind s.blockOffs 32)).toNat then
            let names :=
              if slice buf behind (s.blockOffs + 40) 9 = openwrtName then [(40, 9), (4, 4)]
              else if slice buf behind (s.blockOffs + 40) query.name.length = query.name then
                let outName :=
                  if s.valid ∧ query.outName then
                    [(28, 1), (40, strnlenReads (slice buf behind (s.blockOffs + 40) (field 28 1)))]
                  else []
                let outNameLen := if s.valid ∧ query.outNameLen then [(28, 1)] else []
                [(40, 9), (40, query.name.length)] ++ outName ++ outNameLen
              else [(40, 9), (40, query.name.length), (4, 4)]
            validReads ++ names
          else validReads
        else [(0, 2), (2, 2), (20, 4)]
      else [(0, 2), (2, 2)]
    else [(0, 2)]
  else []

/-- The loop over a block ends, and all octets that it reads are in the buffer. -/
def FindSafe (valid : Bool) : Prop :=
  Ends (findNode bigEndian query buf behind) ⟨0, valid⟩ ∧
    ∀ s, Reaches (findNode bigEndian query buf behind) ⟨0, valid⟩ s →
      Inside s.blockOffs buf.length (findReads bigEndian query buf behind s)

def findExtent (s : FindScan) : Nat :=
  let field (start width : Nat) : Nat :=
    readNumber bigEndian (slice buf behind (s.blockOffs + start) width)
  if field 0 2 ≠ magicBitmask then 2
  else if field 2 2 ≠ nodetypeDirent then 4
  else if field 20 4 = 0 then 24
  else if field 32 4 ≠ (crc32 0 (slice buf behind s.blockOffs 32)).toNat then 36
  else if slice buf behind (s.blockOffs + 40) 9 = openwrtName then 49
  else if slice buf behind (s.blockOffs + 40) query.name.length = query.name ∧ s.valid ∧
      query.outName then
    max (40 + max 9 query.name.length)
      (40 + strnlenReads (slice buf behind (s.blockOffs + 40) (field 28 1)))
  else 40 + max 9 query.name.length

variable {bigEndian query buf behind}

theorem extent_names (len : Nat) (reads reads' : List (Nat × Nat)) :
    extent (validReads ++ ([(40, 9), (40, len)] ++ reads ++ reads')) =
      max (40 + max 9 len) (max (extent reads) (extent reads')) := by
  have hvalid : extent validReads = 36 := rfl
  have hnine : ¬ 9 = 0 := by decide
  rw [extent_append, extent_append, extent_append, extent_pair, extent_pair, if_neg hnine,
    extent_nil]
  generalize extent reads = a
  generalize extent reads' = b
  split_ifs <;> omega

theorem extent_len (c : Prop) [Decidable c] : extent (if c then [(28, 1)] else []) ≤ 29 := by
  split_ifs <;> decide

theorem extent_entryReads (openwrt name outName outNameLen : Prop) [Decidable openwrt]
    [Decidable name] [Decidable outName] [Decidable outNameLen] (len n : Nat) :
    extent (validReads ++
      if openwrt then [(40, 9), (4, 4)]
      else if name then
        [(40, 9), (40, len)] ++ (if outName then [(28, 1), (40, n)] else []) ++
          if outNameLen then [(28, 1)] else []
      else [(40, 9), (40, len), (4, 4)]) =
      if openwrt then 49
      else if name ∧ outName then max (40 + max 9 len) (40 + n)
      else 40 + max 9 len := by
  by_cases hopenwrt : openwrt
  · rw [if_pos hopenwrt, if_pos hopenwrt]
    rfl
  rw [if_neg hopenwrt, if_neg hopenwrt]
  by_cases hname : name
  · have hlen := extent_len outNameLen
    rw [if_pos hname, extent_names]
    generalize extent (if outNameLen then [(28, 1)] else []) = k at hlen ⊢
    by_cases hout : outName
    · have hone : ¬ 1 = 0 := by decide
      rw [if_pos hout, if_pos (And.intro hname hout), extent_pair, extent_pair, if_neg hone,
        extent_nil]
      split_ifs <;> omega
    · rw [if_neg hout, if_neg fun h => hout h.2, extent_nil]
      omega
  · have hfour : extent [(4, 4)] = 8 := rfl
    rw [if_neg hname, if_neg fun h => hname h.1]
    refine (extent_names len [(4, 4)] []).trans ?_
    rw [extent_nil]
    omega

theorem extent_findReads {s : FindScan} (h : s.blockOffs < buf.length) :
    extent (findReads bigEndian query buf behind s) =
      findExtent bigEndian query buf behind s := by
  simp only [findReads, findExtent, if_pos h, ite_not]
  by_cases hmagic : readNumber bigEndian (slice buf behind (s.blockOffs + 0) 2) = magicBitmask
  case neg =>
    rw [if_neg hmagic, if_neg hmagic]
    rfl
  by_cases htype : readNumber bigEndian (slice buf behind (s.blockOffs + 2) 2) = nodetypeDirent
  case neg =>
    rw [if_pos hmagic, if_pos hmagic, if_neg htype, if_neg htype]
    rfl
  by_cases hino : readNumber bigEndian (slice buf behind (s.blockOffs + 20) 4) = 0
  case pos =>
    rw [if_pos hmagic, if_pos hmagic, if_pos htype, if_pos htype, if_pos hino, if_pos hino]
    rfl
  by_cases hcrc : readNumber bigEndian (slice buf behind (s.blockOffs + 32) 4) =
    (crc32 0 (slice buf behind s.blockOffs 32)).toNat
  case neg =>
    rw [if_pos hmagic, if_pos hmagic, if_pos htype, if_pos htype, if_neg hino, if_neg hino,
      if_neg hcrc, if_neg hcrc]
    rfl
  rw [if_pos hmagic, if_pos hmagic, if_pos htype, if_pos htype, if_neg hino, if_neg hino,
    if_pos hcrc, if_pos hcrc]
  exact extent_entryReads _ _ _ _ _ _

theorem find_place (s s' t : FindScan) (hofs : s.blockOffs = s'.blockOffs)
    (h : Goes (findNode bigEndian query buf behind) s t) :
    ∃ t', Goes (findNode bigEndian query buf behind) s' t' ∧ t.blockOffs = t'.blockOffs := by
  simp only [Goes, findNode, hofs] at h ⊢
  split_ifs at h ⊢
  all_goals
    cases h
    exact ⟨_, rfl, rfl⟩

theorem find_bound (s t : FindScan) (h : Goes (findNode bigEndian query buf behind) s t) :
    s.blockOffs < buf.length := by
  by_contra hout
  simp only [Goes, findNode, if_neg hout] at h
  cases h

end Find

/-! ### The walks -/

/-- A loop over offsets ends and reads inside the buffer if and only if it comes to no offset
    twice, and the part of each node that is looked at ends before the buffer. -/
theorem ends_inside_iff {σ ρ : Type} {step : σ → Next σ ρ} {place : σ → Nat} {size : Nat}
    {reads : σ → List (Nat × Nat)} {part : σ → Nat}
    (hplace : ∀ s s' t, place s = place s' → Goes step s t →
      ∃ t', Goes step s' t' ∧ place t = place t')
    (hbound : ∀ s t, Goes step s t → place s < size)
    (hreads : ∀ s, place s < size → extent (reads s) = part s)
    (hnone : ∀ s, ¬ place s < size → reads s = []) (s : σ) :
    (Ends step s ∧ ∀ t, Reaches step s t → Inside (place t) size (reads t)) ↔
      ∀ t, Reaches step s t → (∀ u, TransGen (Goes step) t u → place u ≠ place t) ∧
        (place t < size → place t + part t ≤ size) := by
  have hinside : ∀ t, Inside (place t) size (reads t) ↔
      place t < size → place t + part t ≤ size := by
    intro t
    by_cases hlt : place t < size
    · rw [inside_iff (by omega), hreads t hlt]
      exact ⟨fun h _ => h, fun h => h hlt⟩
    · rw [hnone t hlt]
      exact ⟨fun _ h => absurd h hlt, fun _ r hr => absurd hr not_mem_nil⟩
  rw [ends_iff hplace hbound]
  constructor
  · rintro ⟨hne, hall⟩ t ht
    exact ⟨fun u => hne t u ht, (hinside t).mp (hall t ht)⟩
  · intro h
    exact ⟨fun t u ht => (h t ht).1 u, fun t ht => (hinside t).mpr (h t ht).2⟩

/-- **Walking the nodes of a block.**  Each of the loops ends and reads inside the buffer if and
    only if it comes to no offset twice, and the part of each node that it looks at is in the
    buffer. -/
theorem node_walks_safe_iff (bigEndian : Bool) (dir : List UInt8) (p : Parsed) (query : Query)
    (valid : Bool) (buf : List UInt8) (behind : Nat → UInt8) :
    (ParseSafe bigEndian dir buf behind p ↔
      ∀ s, Reaches (parseNodeIn bigEndian dir buf behind) ⟨0, p⟩ s →
        (∀ t, TransGen (Goes (parseNodeIn bigEndian dir buf behind)) s t → t.ofs ≠ s.ofs) ∧
        (s.ofs < buf.length →
          s.ofs + parseExtent bigEndian dir buf behind s.ofs ≤ buf.length)) ∧
    (FindSafe bigEndian query buf behind valid ↔
      ∀ s, Reaches (findNode bigEndian query buf behind) ⟨0, valid⟩ s →
        (∀ t, TransGen (Goes (findNode bigEndian query buf behind)) s t →
          t.blockOffs ≠ s.blockOffs) ∧
        (s.blockOffs < buf.length →
          s.blockOffs + findExtent bigEndian query buf behind s ≤ buf.length)) := by
  constructor
  · refine ends_inside_iff parse_place parse_bound (fun s h => extent_parseReads h) ?_ ⟨0, p⟩
    intro s hout
    exact if_neg hout
  · refine ends_inside_iff find_place find_bound (fun s h => extent_findReads h) ?_ ⟨0, valid⟩
    intro s hout
    exact if_neg hout

def emptyNode : List UInt8 := [0x85, 0x19, 0x03, 0x20, 0, 0, 0, 0]

def emptyEntry : List UInt8 :=
  [0x85, 0x19, 0x01, 0xe0, 0, 0, 0, 0, 0, 0, 0, 0, 1, 0, 0, 0, 1, 0, 0, 0, 5, 0, 0, 0, 0, 0, 0, 0,
    1, 4, 0, 0, 197, 229, 119, 96, 0, 0, 0, 0, 0x61, 0, 0, 0, 0, 0, 0, 0, 0, 0]

theorem slice_front {octets : List UInt8} {start len : Nat} (h : start + len ≤ octets.length)
    (behind : Nat → UInt8) (rest : List UInt8) :
    slice (octets ++ rest) behind (0 + start) len = (octets.drop start).take len :=
  @slice_append behind [] octets rest start len h

theorem goes_emptyNode (rest : List UInt8) (behind : Nat → UInt8) (p : Parsed) :
    Goes (parseNodeIn false [] (emptyNode ++ rest) behind) ⟨0, p⟩ ⟨0, p⟩ := by
  have hpos : 0 < (emptyNode ++ rest).length := by
    rw [length_append]
    exact Nat.lt_of_lt_of_le (by decide) (Nat.le_add_right _ _)
  have hmagic : readNumber false (slice (emptyNode ++ rest) behind (0 + 0) 2) = magicBitmask := by
    rw [slice_front (by decide)]
    decide
  have htype : readNumber false (slice (emptyNode ++ rest) behind (0 + 2) 2) ≠ nodetypeDirent := by
    rw [slice_front (by decide)]
    decide
  have htotlen : readNumber false (slice (emptyNode ++ rest) behind (0 + 4) 4) = 0 := by
    rw [slice_front (by decide)]
    decide
  simp only [Goes, parseNodeIn, if_pos (And.intro hpos hmagic), if_neg htype, htotlen]
  rfl

theorem goes_emptyEntry (rest : List UInt8) (behind : Nat → UInt8) (valid : Bool) {query : Query}
    (hquery : query.name = [0x63, 0x66, 0x65, 0x72, 0x61, 0x6d]) :
    Goes (findNode false query (emptyEntry ++ rest) behind) ⟨0, valid⟩ ⟨0, valid⟩ := by
  have hpos : 0 < (emptyEntry ++ rest).length := by
    rw [length_append]
    exact Nat.lt_of_lt_of_le (by decide) (Nat.le_add_right _ _)
  have hvalid : direntValid false (emptyEntry ++ rest) behind 0 := by
    have hstart := slice_front (by decide : 0 + 32 ≤ emptyEntry.length) behind rest
    rw [direntValid, hstart, slice_front (by decide), slice_front (by decide),
      slice_front (by decide), slice_front (by decide)]
    decide +kernel
  have hopenwrt : slice (emptyEntry ++ rest) behind (0 + 40) 9 ≠ openwrtName := by
    rw [slice_front (by decide)]
    decide
  have hname : slice (emptyEntry ++ rest) behind (0 + 40) query.name.length ≠ query.name := by
    rw [hquery, slice_front (by decide)]
    decide
  have hnext : nextOffs false (emptyEntry ++ rest) behind 0 = 0 := by
    rw [nextOffs, slice_front (by decide)]
    decide
  simp only [Goes, findNode, if_pos hpos, if_pos hvalid, if_neg hopenwrt, if_neg hname, hnext]

/-- In a block of 64 KiB, either loop stays at a first node with the length 0 forever. -/
theorem not_node_walks_safe :
    ¬ ParseSafe false [] (emptyNode ++ replicate 65528 0xff) (fun _ => 0) ⟨0, 0, 0⟩ ∧
    ¬ FindSafe false ⟨[0x63, 0x66, 0x65, 0x72, 0x61, 0x6d], false, false⟩
      (emptyEntry ++ replicate 65486 0xff) (fun _ => 0) false := by
  constructor
  · rintro ⟨hends, -⟩
    exact not_ends_of_goes_self (goes_emptyNode _ _ _) hends
  · rintro ⟨hends, -⟩
    exact not_ends_of_goes_self (goes_emptyEntry _ _ _ rfl) hends

end Rooter.Jffs2Walk
