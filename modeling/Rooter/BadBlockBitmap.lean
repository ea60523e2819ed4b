import Mathlib.Algebra.Group.Nat.Defs
import Mathlib.Order.Interval.Set.Defs
import Rooter.BadBlockTable
import Rooter.Ranking

/-!
# The mapping of the bad block bitmap

The older tables have two bits for each block, not zero if the block is bad, and
`get_mapping_block_index_bbt` computes the mapping from them: the blocks of a configured
range are mapped, in order, to the good ones, and those that are left over to the bad ones.

The ends of a range are addresses of 32 bits that are put into an `int`, so that from 2 GiB on
they are negative, and a block belongs to the first range of the list that its address is in.
The mapping of a range is as it should be if and only if each of its blocks is found in a
range that is read with the same ends.
-/

namespace Rooter.Bmt

open List Ranking

/-! ### The bitmap and the ranges -/

/-- The byte of `bbt_buf` with the bits of the block; the number is cut to 16 bits. -/
def bbtBlockIsBad (buf : Words) (block : Int) : Bool :=
  let block := (block % 0x10000).toNat
  buf (block / 4) &&& 3 <<< (block % 4 * 2) != 0

/-- `blk_shift`, and the pairs of `mediatek,bmt-remap-range`, which are numbers of 32 bits.
    No range goes beyond the blocks that have a number of 16 bits. -/
structure Layout where
  blkShift : Nat
  remapRange : List (Nat × Nat)
  lt : ∀ r ∈ remapRange, r.1 < 0x100000000 ∧ r.2 < 0x100000000
  fits : ∀ r ∈ remapRange, r.2 ≤ 0x10000 * 2 ^ blkShift

def toInt (n : Nat) : Int := if n < 0x80000000 then n else n - 0x100000000

/-- `mapping_block_in_range`, with `start` and `end`. -/
def mappingBlockInRange (g : Layout) (c : Chip) (block : Nat) : Option (Int × Int) :=
  let addr := block * 2 ^ g.blkShift % 0x100000000
  if g.remapRange = [] then some (0, c.totalBlks)
  else (g.remapRange.find? fun r => r.1 ≤ addr ∧ addr < r.2).map fun r => (toInt r.1, toInt r.2)

/-! ### The mapping -/

section Loops

variable (bad : Int → Bool)

/-- The loop that skips bad blocks, with `n` blocks to go; it returns `i`, `ofs` and
    `bad_blocks`. -/
def skipBad : Nat → Int → Int → Int → Int × Int × Int
  | 0, i, ofs, badBlocks => (i, ofs, badBlocks)
  | n + 1, i, ofs, badBlocks =>
      if bad i then skipBad n (i + 1) ofs (badBlocks + 1)
      else if ofs ≠ 0 then skipBad n (i + 1) (ofs - 1) badBlocks
      else (i, ofs, badBlocks)

/-- The loop over the bad blocks from the end; `bad_blocks` is zero when `n` blocks have been
    looked at. -/
def countDown : Nat → Int → Int → Int → Option Int
  | 0, _, _, _ => none
  | n + 1, i, ofs, badBlocks =>
      if badBlocks ≤ 0 then none
      else if !bad i then countDown n (i - 1) ofs badBlocks
      else if badBlocks - 1 ≤ ofs then some i
      else countDown n (i - 1) ofs (badBlocks - 1)

end Loops

/-- The two loops, for a range that is read as the blocks `start` to `stop - 1`. -/
def mapBlock (bad : Int → Bool) (start stop : Int) (block : Nat) : Int :=
  match skipBad bad (stop - start).toNat start (block - start) 0 with
  | (i, ofs, badBlocks) =>
      if i < stop then i
      else (countDown bad (stop - start).toNat (stop - 1) ofs badBlocks).getD block

def getMappingBlockIndexBbt (g : Layout) (c : Chip) (buf : Words) (block : Nat) : Int :=
  match mappingBlockInRange g c block with
  | none => block
  | some (start, stop) =>
      mapBlock (bbtBlockIsBad buf) (start / (2 ^ g.blkShift : Nat)) (stop / (2 ^ g.blkShift : Nat))
        block

/-! ### The loops -/

section LoopSpec

variable {bad : Int → Bool}

def goodBlocks (bad : Int → Bool) (i n : Nat) : List Nat :=
  (range' i n).filter fun b => !bad b

def badBlocks (bad : Int → Bool) (i n : Nat) : List Nat := (range' i n).filter fun b => bad b

section Step

variable {i : Nat} (n : Nat)

theorem goodBlocks_of_bad (h : bad i = true) :
    goodBlocks bad i (n + 1) = goodBlocks bad (i + 1) n := by
  unfold goodBlocks
  rw [range'_succ, filter_cons_of_neg (by rw [h]; decide)]

theorem goodBlocks_of_good (h : bad i = false) :
    goodBlocks bad i (n + 1) = i :: goodBlocks bad (i + 1) n := by
  unfold goodBlocks
  rw [range'_succ, filter_cons_of_pos (by rw [h]; decide)]

theorem badBlocks_of_bad (h : bad i = true) :
    badBlocks bad i (n + 1) = i :: badBlocks bad (i + 1) n := by
  unfold badBlocks
  rw [range'_succ, filter_cons_of_pos (by exact h)]

theorem badBlocks_of_good (h : bad i = false) :
    badBlocks bad i (n + 1) = badBlocks bad (i + 1) n := by
  unfold badBlocks
  rw [range'_succ, filter_cons_of_neg (by rw [h]; decide)]

end Step

theorem skipBad_of_getElem : ∀ n (i ofs : Nat) (count : Int) g,
    (goodBlocks bad i n)[ofs]? = some g → (skipBad bad n i ofs count).1 = g := by
  intro n
  induction n with
  | zero =>
    intro i ofs count g h
    cases h
  | succ n ih =>
    intro i ofs count g h
    rw [skipBad]
    cases hbad : bad i with
    | true =>
      rw [goodBlocks_of_bad n hbad] at h
      exact ih (i + 1) ofs _ g h
    | false =>
      rw [goodBlocks_of_good n hbad] at h
      cases ofs with
      | zero =>
        cases h
        rfl
      | succ ofs =>
        rw [if_neg (by decide), Int.natCast_succ, Int.add_sub_cancel]
        exact ih (i + 1) ofs _ g h

theorem skipBad_of_le : ∀ n (i ofs : Nat) (count : Int), (goodBlocks bad i n).length ≤ ofs →
    skipBad bad n i ofs count = (((i + n : Nat) : Int),
      (ofs : Int) - (goodBlocks bad i n).length, count + (badBlocks bad i n).length) := by
  intro n
  induction n with
  | zero =>
    intro i ofs count _
    simp [skipBad, goodBlocks, badBlocks]
  | succ n ih =>
    intro i ofs count h
    have hnext : i + (n + 1) = i + 1 + n := by omega
    rw [skipBad]
    cases hbad : bad i with
    | true =>
      rw [goodBlocks_of_bad n hbad] at h ⊢
      rw [badBlocks_of_bad n hbad, length_cons, hnext]
      refine (ih (i + 1) ofs _ h).trans ?_
      rw [Int.natCast_succ, Int.add_assoc, Int.add_comm 1]
    | false =>
      rw [goodBlocks_of_good n hbad, length_cons] at h
      rw [goodBlocks_of_good n hbad, badBlocks_of_good n hbad, length_cons, hnext,
        if_neg (by decide)]
      obtain ⟨ofs, rfl⟩ := Nat.exists_eq_succ_of_ne_zero (show ofs ≠ 0 by omega)
      rw [Int.natCast_succ, Int.add_sub_cancel]
      refine (ih (i + 1) ofs _ (by omega)).trans ?_
      rw [show (ofs : Int) + 1 - ((goodBlocks bad (i + 1) n).length + 1 : Nat) =
        ofs - (goodBlocks bad (i + 1) n).length by omega]

/-- The blocks that are left over go to the bad ones from the bottom on, although they are
    counted from the top. -/
theorem countDown_eq {i : Nat} : ∀ n (ofs b : Nat), (badBlocks bad i n)[ofs]? = some b →
    countDown bad n ((i + n : Nat) - 1) ofs (badBlocks bad i n).length = some (b : Int) := by
  intro n
  induction n with
  | zero =>
    intro ofs b h
    cases h
  | succ n ih =>
    intro ofs b h
    obtain ⟨hlt, -⟩ := List.getElem?_eq_some_iff.mp h
    have hlast : badBlocks bad i (n + 1) =
        badBlocks bad i n ++ if bad (i + n : Nat) then [i + n] else [] := by
      unfold badBlocks
      rw [range'_concat, filter_append, Nat.one_mul]
      rw [filter_cons]
      rfl
    have hi : (i + (n + 1) : Nat) - 1 = ((i + n : Nat) : Int) := by omega
    rw [countDown, if_neg (by omega), hi]
    cases hbad : bad (i + n : Nat) with
    | true =>
      rw [hlast, hbad, if_pos rfl] at h hlt ⊢
      rw [length_append, length_singleton] at hlt ⊢
      rw [if_neg (by decide)]
      rcases Nat.lt_or_eq_of_le (Nat.le_of_lt_succ hlt) with hlt' | rfl
      · rw [getElem?_append_left hlt'] at h
        rw [if_neg (by omega), Int.natCast_succ, Int.add_sub_cancel]
        exact ih ofs b h
      · rw [getElem?_concat_length] at h
        cases h
        rw [if_pos (by omega)]
    | false =>
      rw [hlast, hbad, if_neg Bool.false_ne_true, append_nil] at h ⊢
      exact ih ofs b h

end LoopSpec

/-! ### One range -/

section Range

variable {bad : Int → Bool} {s e b : Nat}

/-- A block of the range that is read goes to its place among the good ones first. -/
theorem mapBlock_of_place (hs : s ≤ b) {x : Nat}
    (h : place (fun a => !bad a) s e b = some x) : mapBlock bad s e b = x := by
  obtain ⟨k, rfl⟩ := Nat.exists_eq_add_of_le hs
  unfold place at h
  rw [Nat.add_sub_cancel_left] at h
  have hmem := mem_range'_1.mp ((ranked_perm _ _).mem_iff.mp (mem_of_getElem? h))
  unfold mapBlock
  rw [show ((e : Int) - s).toNat = e - s by omega, show ((s + k : Nat) : Int) - s = k by omega]
  by_cases hgood : k < (goodBlocks bad s (e - s)).length
  · rw [getElem?_ranked_of_lt hgood] at h
    have hskip := skipBad_of_getElem (e - s) s k 0 x h
    generalize skipBad bad (e - s) s k 0 = r at hskip
    obtain ⟨i, ofs, count⟩ := r
    dsimp only at hskip ⊢
    rw [hskip, if_pos (by omega)]
  · have hle := Nat.le_of_not_lt hgood
    rw [getElem?_ranked_of_le hle] at h
    simp only [Bool.not_not] at h
    have hdown := countDown_eq (e - s) _ x h
    rw [skipBad_of_le _ _ _ _ hle]
    dsimp only
    rw [if_neg (by omega), Int.zero_add,
      show e - 1 = ((s + (e - s) : Nat) : Int) - 1 by omega]
    refine (congrArg (Option.getD · _) (Eq.trans ?_ hdown)).trans rfl
    unfold goodBlocks at hle ⊢
    rw [Int.natCast_sub hle]

theorem mapBlock_of_le {p q : Int} (h : q ≤ p) : mapBlock bad p q b = b := by
  unfold mapBlock
  rw [show (q - p).toNat = 0 by omega]
  dsimp only [skipBad]
  rw [if_neg (by omega)]
  rfl

/-- If all blocks are bad, a block behind the range goes to the last one of it. -/
theorem mapBlock_of_bad {p q : Int} (hbad : ∀ i, bad i = true) (hlt : p < q) (hq : q ≤ b) :
    mapBlock bad p q b = q - 1 := by
  have hskip : ∀ (n : Nat) (i ofs count : Int),
      skipBad bad n i ofs count = (i + n, ofs, count + n) := by
    intro n
    induction n with
    | zero =>
      intro i ofs count
      simp [skipBad]
    | succ n ih =>
      intro i ofs count
      rw [skipBad, if_pos (hbad i), ih, Int.natCast_succ, Int.add_assoc, Int.add_assoc,
        Int.add_comm 1]
  unfold mapBlock
  rw [hskip]
  obtain ⟨n, hn⟩ : ∃ n : Nat, (q - p).toNat = n + 1 := ⟨(q - p).toNat - 1, by omega⟩
  rw [hn]
  dsimp only
  rw [if_neg (by omega), countDown, if_neg (by omega), if_neg (by rw [hbad]; decide),
    if_pos (by omega)]
  rfl

end Range

/-! ### All bitmaps -/

section Bitmap

def packed (bad : Nat → Bool) (i : Nat) : Nat :=
  cond (bad (4 * i)) 3 0 ||| cond (bad (4 * i + 1)) 12 0 ||| cond (bad (4 * i + 2)) 48 0 |||
    cond (bad (4 * i + 3)) 192 0

def isGood (buf : Words) (b : Nat) : Bool := !bbtBlockIsBad buf b

theorem bbtBlockIsBad_packed (bad : Nat → Bool) (b : Int) :
    bbtBlockIsBad (packed bad) b = bad (b % 0x10000).toNat := by
  have hbits : ∀ b₀ b₁ b₂ b₃ : Bool, ∀ k < 4,
      ((cond b₀ 3 0 ||| cond b₁ 12 0 ||| cond b₂ 48 0 ||| cond b₃ 192 0) &&& 3 <<< (k * 2) != 0) =
        [b₀, b₁, b₂, b₃].getD k false := by
    decide
  unfold bbtBlockIsBad packed
  generalize (b % 0x10000).toNat = n
  rw [hbits _ _ _ _ (n % 4) (Nat.mod_lt n (by decide))]
  have hlist : ∀ m k : Nat, k < 4 →
      [bad m, bad (m + 1), bad (m + 2), bad (m + 3)].getD k false = bad (m + k) := by
    intro m k hk
    match k with
    | 0 | 1 | 2 | 3 => rfl
  rw [hlist _ _ (Nat.mod_lt n (by decide)), Nat.div_add_mod]

theorem exists_bitmap (p : Nat → Bool) : ∃ buf, ∀ s e b, e ≤ 0x10000 →
    place (isGood buf) s e b = place p s e b := by
  refine ⟨packed fun a => !p a, fun s e b hle => place_congr fun a _ ha => ?_⟩
  unfold isGood
  rw [bbtBlockIsBad_packed, Bool.not_not, show ((a : Int) % 0x10000).toNat = a by omega]

variable {s e b : Nat} {p q : Int}

/-- A block goes to its place in the range under all bitmaps only if the code reads the same
    range, or if there is nothing to be moved and it reads an empty one. -/
theorem mapBlock_iff (hs : s ≤ b) (he : b < e) (hle : e ≤ 0x10000) (hp : p ≤ b)
    (hq : q ≤ 0x10000) (hneg : p < 0 → q ≤ b) :
    (∀ buf x, place (isGood buf) s e b = some x →
      mapBlock (bbtBlockIsBad buf) p q b = x) ↔ p = s ∧ q = e ∨ q ≤ p ∧ e = s + 1 := by
  constructor
  · intro h
    -- the bitmaps can be any condition on the blocks
    have hplace : ∀ s' e' : Nat, s' ≤ b → b < e' → e' ≤ 0x10000 →
        (∀ buf x, place (isGood buf) s' e' b = some x →
          mapBlock (bbtBlockIsBad buf) p q b = x) → s = s' ∧ e = e' := by
      intro s' e' hs' he' hle' h'
      refine ends_eq_of_place hs he hs' he' fun f => ?_
      obtain ⟨buf, hbuf⟩ := exists_bitmap f
      obtain ⟨x, hx⟩ := exists_place f hs he
      obtain ⟨y, hy⟩ := exists_place f hs' he'
      have hxy : (x : Int) = y := by
        rw [← h buf x (by rw [hbuf s e b hle, hx]), h' buf y (by rw [hbuf s' e' b hle', hy])]
      rw [hx, hy, Int.ofNat.inj hxy]
    rcases Int.lt_or_le p q with hlt | hqp
    · left
      rcases Int.lt_or_le b q with hbq | hqb
      · have hpos : 0 ≤ p := Int.not_lt.mp fun hlt => absurd (hneg hlt) (by omega)
        obtain ⟨p, rfl⟩ := Int.eq_ofNat_of_zero_le hpos
        obtain ⟨q, rfl⟩ := Int.eq_ofNat_of_zero_le (show 0 ≤ q by omega)
        obtain ⟨rfl, rfl⟩ := hplace p q (by omega) (by omega) (by omega)
          fun buf x hx => mapBlock_of_place (by omega) hx
        exact ⟨rfl, rfl⟩
      · -- with bad blocks only, the block is moved into the range
        exfalso
        have hall : place (isGood (packed fun _ => true)) s e b = some b := by
          rw [show some b = some (b + e - e) by rw [Nat.add_sub_cancel],
            ← place_of_ge (Nat.le_refl e) he (by omega) hs]
          refine place_congr fun a _ ha => ?_
          unfold isGood
          rw [bbtBlockIsBad_packed, decide_eq_true ha]
        have hmap := h (packed fun _ => true) b hall
        rw [mapBlock_of_bad (bbtBlockIsBad_packed _) hlt hqb] at hmap
        omega
    · right
      obtain ⟨rfl, rfl⟩ := hplace b (b + 1) (Nat.le_refl b) (by omega) (by omega) (by
        intro buf x hx
        rw [place_singleton] at hx
        rw [mapBlock_of_le hqp, Option.some.inj hx])
      exact ⟨hqp, rfl⟩
  · rintro (⟨rfl, rfl⟩ | ⟨hqp, rfl⟩) buf x hx
    · exact mapBlock_of_place hs hx
    · obtain rfl : b = s := by omega
      rw [place_singleton] at hx
      rw [mapBlock_of_le hqp, Option.some.inj hx]

end Bitmap

/-! ### The mapping as a whole -/

section Whole

variable {g : Layout} {c : Chip} {s e b : Nat} {p q : Int}

variable (g c b) in
/-- The blocks that the loops go over for a block, if its address is in a range. -/
def blockRange : Option (Int × Int) :=
  (mappingBlockInRange g c b).map fun r =>
    (r.1 / (2 ^ g.blkShift : Nat), r.2 / (2 ^ g.blkShift : Nat))

theorem getMappingBlockIndexBbt_of_none (h : blockRange g c b = none) (buf : Words) :
    getMappingBlockIndexBbt g c buf b = b := by
  unfold getMappingBlockIndexBbt
  rw [Option.map_eq_none_iff.mp h]

theorem getMappingBlockIndexBbt_of_some (h : blockRange g c b = some (p, q)) (buf : Words) :
    getMappingBlockIndexBbt g c buf b = mapBlock (bbtBlockIsBad buf) p q b := by
  obtain ⟨r, hr, heq⟩ := Option.map_eq_some_iff.mp h
  cases heq
  unfold getMappingBlockIndexBbt
  rw [hr]

theorem blockRange_bounds (h : blockRange g c b = some (p, q)) :
    p ≤ b ∧ q ≤ 0x10000 ∧ (p < 0 → q ≤ b) := by
  obtain ⟨r, hr, heq⟩ := Option.map_eq_some_iff.mp h
  cases heq
  have hpos : (0 : Int) < 2 ^ g.blkShift := Int.natCast_pos.mpr (Nat.two_pow_pos _)
  unfold mappingBlockInRange at hr
  split at hr
  · cases hr
    have htotal := c.totalBlks_lt
    refine ⟨?_, ?_, ?_⟩
    · rw [Int.zero_ediv]
      exact Int.natCast_nonneg b
    · exact Int.le_trans (Int.ediv_le_self _ (Int.natCast_nonneg _)) (by omega)
    · intro hneg
      rw [Int.zero_ediv] at hneg
      omega
  · obtain ⟨r', hfind, heq⟩ := Option.map_eq_some_iff.mp hr
    cases heq
    have hin := find?_some hfind
    rw [decide_eq_true_eq] at hin
    have hlt := g.lt _ (mem_of_find?_eq_some hfind)
    have hfits := g.fits _ (mem_of_find?_eq_some hfind)
    refine ⟨?_, ?_, ?_⟩
    · refine Int.ediv_le_of_le_mul hpos ?_
      unfold toInt
      split <;> omega
    · refine Int.ediv_le_of_le_mul hpos ?_
      unfold toInt
      split <;> omega
    · intro hneg
      refine Int.ediv_le_of_le_mul hpos ?_
      have hstart : toInt r'.1 < 0 := by
        refine Int.not_le.mp fun hge => ?_
        exact absurd (Int.ediv_nonneg hge (Int.le_of_lt hpos)) (Int.not_le.mpr hneg)
      have hb : (0 : Int) ≤ b * 2 ^ g.blkShift :=
        Int.mul_nonneg (Int.natCast_nonneg b) (Int.le_of_lt hpos)
      refine Int.le_trans ?_ hb
      unfold toInt at hstart ⊢
      split at hstart
      · omega
      · omega

variable (g s e) in
/-- Blocks `s` to `e - 1` are a range of the list. -/
structure Configured : Prop where
  lt : s < e
  mem : (s * 2 ^ g.blkShift, e * 2 ^ g.blkShift) ∈ g.remapRange

theorem Configured.le (h : Configured g s e) : e ≤ 0x10000 :=
  Nat.le_of_mul_le_mul_right (g.fits _ h.mem) (Nat.two_pow_pos _)

theorem Configured.exists_blockRange (h : Configured g s e) (hs : s ≤ b) (he : b < e) :
    ∃ r, blockRange g c b = some r := by
  have hlo : s * 2 ^ g.blkShift ≤ b * 2 ^ g.blkShift := Nat.mul_le_mul_right _ hs
  have hhi : b * 2 ^ g.blkShift < e * 2 ^ g.blkShift :=
    Nat.mul_lt_mul_of_pos_right he (Nat.two_pow_pos _)
  have hlt := (g.lt _ h.mem).2
  have hfind : (g.remapRange.find? fun r => r.1 ≤ b * 2 ^ g.blkShift % 0x100000000 ∧
      b * 2 ^ g.blkShift % 0x100000000 < r.2).isSome := by
    rw [find?_isSome]
    refine ⟨_, h.mem, ?_⟩
    rw [Nat.mod_eq_of_lt (by omega), decide_eq_true_eq]
    exact ⟨hlo, hhi⟩
  obtain ⟨r, hr⟩ := Option.isSome_iff_exists.mp hfind
  have hne : g.remapRange ≠ [] := ne_nil_of_mem h.mem
  unfold blockRange mappingBlockInRange
  rw [if_neg hne, hr]
  exact ⟨_, rfl⟩

variable (g b) in
def Outside : Prop :=
  ∀ r ∈ g.remapRange, ¬(r.1 ≤ b * 2 ^ g.blkShift ∧ b * 2 ^ g.blkShift < r.2)

variable (g c s e) in
/-- The blocks of the range are mapped onto the blocks of the range, first to the good ones in
    increasing order, then to the bad ones in increasing order. -/
structure OneToOne (buf : Words) : Prop where
  bijOn : Set.BijOn (fun b => (getMappingBlockIndexBbt g c buf b).toNat) (Set.Ico s e) (Set.Ico s e)
  order : (range' s (e - s)).map (fun b => getMappingBlockIndexBbt g c buf b) =
    (((range' s (e - s)).filter fun b : Nat => !bbtBlockIsBad buf b) ++
      (range' s (e - s)).filter fun b : Nat => bbtBlockIsBad buf b).map Int.ofNat

theorem order_iff {buf : Words} :
    (range' s (e - s)).map (fun b => getMappingBlockIndexBbt g c buf b) =
        (ranked (isGood buf) (range' s (e - s))).map Int.ofNat ↔
      ∀ b x, s ≤ b → b < e → place (isGood buf) s e b = some x →
        getMappingBlockIndexBbt g c buf b = x := by
  have hget : ∀ k < e - s, ((range' s (e - s)).map
      (getMappingBlockIndexBbt g c buf))[k]? =
        some (getMappingBlockIndexBbt g c buf (s + k)) := by
    intro k hk
    rw [getElem?_map, getElem?_range' hk, Nat.one_mul, Option.map_some]
  constructor
  · intro h b x hs he hx
    have hb := congrArg (fun l => l[b - s]?) h
    unfold place at hx
    rw [hget (b - s) (by omega), getElem?_map, hx, Nat.add_sub_cancel' hs] at hb
    exact Option.some.inj hb
  · intro h
    refine ext_getElem? fun k => ?_
    by_cases hk : k < e - s
    · obtain ⟨x, hx⟩ := exists_place (isGood buf) (Nat.le_add_right s k)
        (show s + k < e by omega)
      rw [hget k hk, h (s + k) x (by omega) (by omega) hx, getElem?_map]
      unfold place at hx
      rw [Nat.add_sub_cancel_left] at hx
      rw [hx]
      rfl
    · rw [getElem?_eq_none, getElem?_eq_none]
      · rw [length_map, length_ranked, length_range']
        exact Nat.le_of_not_lt hk
      · rw [length_map, length_range']
        exact Nat.le_of_not_lt hk

theorem oneToOne_of_order {buf : Words}
    (h : (range' s (e - s)).map (fun b => getMappingBlockIndexBbt g c buf b) =
      (ranked (isGood buf) (range' s (e - s))).map Int.ofNat) :
    OneToOne g c s e buf := by
  refine ⟨?_, ?_⟩
  · have hmap : (range' s (e - s)).map (fun b => (getMappingBlockIndexBbt g c buf b).toNat) =
        ranked (isGood buf) (range' s (e - s)) := by
      have hnat := congrArg (map Int.toNat) h
      rw [map_map, map_map, show Int.toNat ∘ Int.ofNat = id from rfl, map_id]
        at hnat
      exact hnat
    have hset : {b | b ∈ range' s (e - s)} = Set.Ico s e := by
      ext b
      change b ∈ range' s (e - s) ↔ s ≤ b ∧ b < e
      rw [mem_range'_1]
      omega
    have hbij := bijOn_of_map_eq nodup_range' hmap
    rwa [hset] at hbij
  · rw [h]
    unfold ranked isGood
    simp only [Bool.not_not]

variable (g c s e) in
/-- Every block of the range is found in one that is read with the same ends, or the range is
    a single block and the one it is found in is read as empty. -/
def Served : Prop :=
  ∀ b p q, s ≤ b → b < e → blockRange g c b = some (p, q) → p = s ∧ q = e ∨ q ≤ p ∧ e = s + 1

theorem Configured.served_iff (h : Configured g s e) : Served g c s e ↔
    ∀ buf b x, s ≤ b → b < e → place (isGood buf) s e b = some x →
      getMappingBlockIndexBbt g c buf b = x := by
  constructor
  · intro hserved buf b x hs he hx
    obtain ⟨⟨p, q⟩, hread⟩ := h.exists_blockRange hs he
    obtain ⟨hp, hq, hneg⟩ := blockRange_bounds hread
    rw [getMappingBlockIndexBbt_of_some hread]
    exact (mapBlock_iff hs he h.le hp hq hneg).mpr (hserved b p q hs he hread) buf x hx
  · intro hmap b p q hs he hread
    obtain ⟨hp, hq, hneg⟩ := blockRange_bounds hread
    refine (mapBlock_iff hs he h.le hp hq hneg).mp fun buf x hx => ?_
    rw [← getMappingBlockIndexBbt_of_some hread]
    exact hmap buf b x hs he hx

theorem served_singleton_iff : Served g c b (b + 1) ↔
    ∀ p q, blockRange g c b = some (p, q) → p = b ∧ q = (b + 1 : Nat) ∨ q ≤ p := by
  constructor
  · intro h p q hread
    exact (h b p q (Nat.le_refl b) (by omega) hread).imp_right And.left
  · intro h b' p q hs he hread
    obtain rfl : b' = b := by omega
    exact (h p q hread).imp_right fun hqp => ⟨hqp, rfl⟩

/-- A block stays where it is under all bitmaps if and only if it is in no range that is read
    as one of several blocks. -/
theorem fixed_iff (hb : b < c.totalBlks) :
    (∀ buf, getMappingBlockIndexBbt g c buf b = b) ↔ Served g c b (b + 1) := by
  have htotal := c.totalBlks_lt
  rw [served_singleton_iff]
  cases hread : blockRange g c b with
  | none =>
    refine iff_of_true (getMappingBlockIndexBbt_of_none hread) ?_
    rintro p q ⟨⟩
  | some r =>
    obtain ⟨p, q⟩ := r
    obtain ⟨hp, hq, hneg⟩ := blockRange_bounds hread
    have hplace : (∀ buf, getMappingBlockIndexBbt g c buf b = b) ↔ ∀ buf x,
        place (isGood buf) b (b + 1) b = some x → mapBlock (bbtBlockIsBad buf) p q b = x := by
      refine forall_congr' fun buf => ?_
      rw [getMappingBlockIndexBbt_of_some hread, place_singleton]
      constructor
      · rintro h x ⟨⟩
        exact h
      · intro h
        exact h b rfl
    rw [hplace, mapBlock_iff (Nat.le_refl b) (by omega) (by omega) hp hq hneg]
    constructor
    · rintro h _ _ ⟨⟩
      exact h.imp_right And.left
    · intro h
      exact (h p q rfl).imp_right fun hqp => ⟨hqp, rfl⟩

variable (g c) in
theorem oneToOne_iff :
    (∀ s e, Configured g s e → ((∀ buf, OneToOne g c s e buf) ↔ Served g c s e)) ∧
      ∀ b < c.totalBlks, Outside g b →
        ((∀ buf, getMappingBlockIndexBbt g c buf b = b) ↔ Served g c b (b + 1)) := by
  constructor
  · intro s e h
    rw [h.served_iff]
    constructor
    · intro hone buf
      refine order_iff.mp ?_
      rw [(hone buf).order]
      unfold ranked isGood
      simp only [Bool.not_not]
    · intro hmap buf
      exact oneToOne_of_order (order_iff.mpr (hmap buf))
  · intro b hb _
    exact fixed_iff hb

end Whole

/-! ### Two layouts -/

/-- A chip of `n` blocks of 128 KiB. -/
def bbtChip (n : Nat) (h : n < 0x10000) : Chip where
  tableSize := 0
  totalBlks := n
  poolLba := 0
  bbMax := 0
  pgSize := 2048
  pages := 64
  bmtPgs := 64
  bad _ := false
  totalBlks_lt := h

def twoRanges : Layout where
  blkShift := 17
  remapRange := [(0, 0x100000), (0x100000, 0x200000)]
  lt := by decide
  fits := by decide

def smallBbt : Chip := bbtChip 1024 (by decide)

theorem served_twoRanges : Served twoRanges smallBbt 8 16 := by
  have hrange : ∀ b < 16, 8 ≤ b → blockRange twoRanges smallBbt b = some (8, 16) := by
    decide
  intro b p q hs he hread
  rw [hrange b he hs] at hread
  cases hread
  exact .inl ⟨rfl, rfl⟩

theorem oneToOne_twoRanges : (∀ buf, OneToOne twoRanges smallBbt 8 16 buf) ∧
    ∀ buf, getMappingBlockIndexBbt twoRanges smallBbt buf 16 = 16 := by
  have hiff := oneToOne_iff twoRanges smallBbt
  refine ⟨(hiff.1 8 16 ⟨by decide, by decide⟩).mpr served_twoRanges,
    (hiff.2 16 (by decide) ?_).mpr ?_⟩
  · unfold Outside
    decide
  · intro b p q hs he hread
    obtain rfl : b = 16 := by omega
    cases hread

def wholeChip : Layout where
  blkShift := 17
  remapRange := [(0, 0x80000000)]
  lt := by decide
  fits := by decide

/-- The end of the range is read as a negative number.  Block 0 is bad and logical block 0
    stays there. -/
theorem not_oneToOne_wholeChip : Configured wholeChip 0 0x4000 ∧
    getMappingBlockIndexBbt wholeChip (bbtChip 0x4000 (by decide)) (packed fun b => b == 0) 0 = 0 ∧
      ¬OneToOne wholeChip (bbtChip 0x4000 (by decide)) 0 0x4000 (packed fun b => b == 0) := by
  refine ⟨⟨by decide, by decide⟩, by decide, ?_⟩
  intro h
  have hhead := congrArg head? h.order
  revert hhead
  decide +kernel

/-! ### No range -/

section NoRange

/-- The layout without `mediatek,bmt-remap-range`. -/
def noRange (blkShift : Nat) : Layout where
  blkShift := blkShift
  remapRange := []
  lt := by simp
  fits := by simp

/-- One range for all blocks of a chip.  Its end has to be a number of 32 bits. -/
def fullRange (c : Chip) (blkShift : Nat) (h : c.totalBlks * 2 ^ blkShift < 0x100000000) :
    Layout where
  blkShift := blkShift
  remapRange := [(0, c.totalBlks * 2 ^ blkShift)]
  lt := by
    rintro r hr
    rw [mem_singleton.mp hr]
    exact ⟨show 0 < 0x100000000 by decide, h⟩
  fits := by
    rintro r hr
    rw [mem_singleton.mp hr]
    exact Nat.mul_le_mul_right _ (Nat.le_of_lt c.totalBlks_lt)

variable {c : Chip} {shift b : Nat} {h : c.totalBlks * 2 ^ shift < 0x100000000}

theorem blockRange_noRange :
    blockRange (noRange shift) c b = some (0, ((c.totalBlks / 2 ^ shift : Nat) : Int)) := by
  unfold blockRange mappingBlockInRange noRange
  rw [if_pos rfl, Option.map_some, Int.zero_ediv, Int.natCast_ediv]

theorem blockRange_fullRange_of_lt (hin : b * 2 ^ shift % 0x100000000 < c.totalBlks * 2 ^ shift) :
    blockRange (fullRange c shift h) c b =
      some (0, toInt (c.totalBlks * 2 ^ shift) / (2 ^ shift : Nat)) := by
  unfold blockRange mappingBlockInRange fullRange
  rw [if_neg (cons_ne_nil _ _), find?_cons_of_pos (by exact decide_eq_true ⟨Nat.zero_le _, hin⟩),
    Option.map_some, Option.map_some, show toInt 0 = 0 from rfl, Int.zero_ediv]

theorem blockRange_fullRange_of_le (hout : c.totalBlks * 2 ^ shift ≤ b * 2 ^ shift % 0x100000000) :
    blockRange (fullRange c shift h) c b = none := by
  unfold blockRange mappingBlockInRange fullRange
  rw [if_neg (cons_ne_nil _ _), find?_cons_of_neg (by simp; omega)]
  rfl

theorem toInt_fullRange_of_lt (h : c.totalBlks * 2 ^ shift < 0x80000000) :
    toInt (c.totalBlks * 2 ^ shift) / (2 ^ shift : Nat) = c.totalBlks := by
  unfold toInt
  rw [if_pos h, ← Int.natCast_ediv, Nat.mul_div_cancel _ (Nat.two_pow_pos shift)]

theorem toInt_fullRange_of_le (h : c.totalBlks * 2 ^ shift < 0x100000000)
    (hle : 0x80000000 ≤ c.totalBlks * 2 ^ shift) :
    toInt (c.totalBlks * 2 ^ shift) / (2 ^ shift : Nat) ≤ 0 := by
  refine Int.ediv_le_of_le_mul (Int.natCast_pos.mpr (Nat.two_pow_pos shift)) ?_
  unfold toInt
  omega

theorem lt_pow_of_le (hle : 0x80000000 ≤ c.totalBlks * 2 ^ shift) : c.totalBlks < 2 ^ shift := by
  refine Nat.lt_of_not_le fun hpow => ?_
  have htotal := c.totalBlks_lt
  have hshift : shift < 16 := (Nat.pow_lt_pow_iff_right (by decide : 1 < 2)).mp (by omega)
  have hpow' : 2 ^ shift ≤ 2 ^ 15 := Nat.pow_le_pow_right (by decide) (by omega)
  have hmul : c.totalBlks * 2 ^ shift ≤ 0xffff * 2 ^ 15 := Nat.mul_le_mul (by omega) hpow'
  omega

variable (c shift b) in
/-- A block of the chip is mapped alike if addresses are block numbers, if there is but one
    block, or if the end of the range is negative, since nothing is moved then.  A block behind
    the chip is mapped alike if it is not moved. -/
def Agrees : Prop :=
  if b < c.totalBlks then shift = 0 ∨ c.totalBlks = 1 ∨ 0x80000000 ≤ c.totalBlks * 2 ^ shift
  else c.totalBlks < 2 ^ shift ∧
    (0x80000000 ≤ c.totalBlks * 2 ^ shift ∨
      c.totalBlks * 2 ^ shift ≤ b * 2 ^ shift % 0x100000000)

theorem noRange_of_lt (hlt : c.totalBlks < 2 ^ shift) (buf : Words) :
    getMappingBlockIndexBbt (noRange shift) c buf b = b := by
  rw [getMappingBlockIndexBbt_of_some blockRange_noRange, Nat.div_eq_of_lt hlt]
  exact mapBlock_of_le (Int.le_refl _)

theorem fullRange_of_le (h : c.totalBlks * 2 ^ shift < 0x100000000)
    (hle : 0x80000000 ≤ c.totalBlks * 2 ^ shift) (buf : Words) :
    getMappingBlockIndexBbt (fullRange c shift h) c buf b = b := by
  rcases Nat.lt_or_ge (b * 2 ^ shift % 0x100000000) (c.totalBlks * 2 ^ shift) with hin | hout
  · rw [getMappingBlockIndexBbt_of_some (blockRange_fullRange_of_lt hin)]
    exact mapBlock_of_le (toInt_fullRange_of_le h hle)
  · rw [getMappingBlockIndexBbt_of_none (blockRange_fullRange_of_le hout)]

theorem div_eq_self_iff (hpos : 0 < c.totalBlks) : c.totalBlks / 2 ^ shift = c.totalBlks ↔
    shift = 0 := by
  constructor
  · intro h
    by_contra hne
    have hpow : 1 < 2 ^ shift := Nat.one_lt_two_pow hne
    exact absurd h (Nat.ne_of_lt (Nat.div_lt_self hpos hpow))
  · rintro rfl
    rw [Nat.pow_zero, Nat.div_one]

theorem noRange_iff_of_lt (h : c.totalBlks * 2 ^ shift < 0x100000000) (hb : b < c.totalBlks) :
    (∀ buf, getMappingBlockIndexBbt (noRange shift) c buf b =
      getMappingBlockIndexBbt (fullRange c shift h) c buf b) ↔
      shift = 0 ∨ c.totalBlks = 1 ∨ 0x80000000 ≤ c.totalBlks * 2 ^ shift := by
  rcases Nat.lt_or_ge (c.totalBlks * 2 ^ shift) 0x80000000 with hlt | hge
  · have haddr : b * 2 ^ shift < c.totalBlks * 2 ^ shift :=
      Nat.mul_lt_mul_of_pos_right hb (Nat.two_pow_pos shift)
    have hfull := blockRange_fullRange_of_lt (h := h)
      (by rwa [Nat.mod_eq_of_lt (Nat.lt_trans haddr h)])
    rw [toInt_fullRange_of_lt hlt] at hfull
    have htotal := c.totalBlks_lt
    have hdiv : c.totalBlks / 2 ^ shift ≤ c.totalBlks := Nat.div_le_self _ _
    -- with the range the block goes to its place, and a place is what `mapBlock_iff` is about
    have hplace : (∀ buf, getMappingBlockIndexBbt (noRange shift) c buf b =
        getMappingBlockIndexBbt (fullRange c shift h) c buf b) ↔
          ∀ buf x, place (isGood buf) 0 c.totalBlks b = some x →
            mapBlock (bbtBlockIsBad buf) 0 (c.totalBlks / 2 ^ shift : Nat) b = x := by
      refine forall_congr' fun buf => ?_
      rw [getMappingBlockIndexBbt_of_some blockRange_noRange, getMappingBlockIndexBbt_of_some hfull]
      constructor
      · intro heq x hx
        exact heq.trans (mapBlock_of_place (Nat.zero_le b) hx)
      · intro hmap
        obtain ⟨x, hx⟩ := exists_place (isGood buf) (Nat.zero_le b) hb
        exact (hmap x hx).trans (mapBlock_of_place (Nat.zero_le b) hx).symm
    rw [hplace, mapBlock_iff (Nat.zero_le b) hb (by omega) (by omega) (by omega) (by omega),
      Int.ofNat_inj, div_eq_self_iff (by omega)]
    constructor
    · rintro (⟨-, hzero⟩ | ⟨-, hone⟩)
      · exact .inl hzero
      · exact .inr (.inl (by omega))
    · rintro (hzero | hone | hge)
      · exact .inl ⟨rfl, hzero⟩
      · rcases Nat.eq_zero_or_pos shift with hzero | hpos
        · exact .inl ⟨rfl, hzero⟩
        · have hpow : 1 < 2 ^ shift := Nat.one_lt_two_pow (by omega)
          refine .inr ⟨?_, by omega⟩
          rw [hone, Nat.div_eq_of_lt hpow]
          exact Int.le_refl _
      · omega
  · refine iff_of_true (fun buf => ?_) (.inr (.inr hge))
    rw [noRange_of_lt (lt_pow_of_le hge), fullRange_of_le h hge]

/-- If all blocks are bad, a block behind the chip is moved by a range that is read with an
    end above its start. -/
theorem noRange_allBad (hb : c.totalBlks ≤ b) (hpow : 2 ^ shift ≤ c.totalBlks) :
    getMappingBlockIndexBbt (noRange shift) c (packed fun _ => true) b =
      ((c.totalBlks / 2 ^ shift : Nat) : Int) - 1 := by
  have hpos : 0 < c.totalBlks / 2 ^ shift := Nat.div_pos hpow (Nat.two_pow_pos shift)
  have hdiv : c.totalBlks / 2 ^ shift ≤ c.totalBlks := Nat.div_le_self _ _
  rw [getMappingBlockIndexBbt_of_some blockRange_noRange]
  exact mapBlock_of_bad (bbtBlockIsBad_packed _) (by omega) (by omega)

theorem fullRange_allBad (h : c.totalBlks * 2 ^ shift < 0x100000000)
    (hlt : c.totalBlks * 2 ^ shift < 0x80000000) (hb : c.totalBlks ≤ b)
    (hin : b * 2 ^ shift % 0x100000000 < c.totalBlks * 2 ^ shift) :
    getMappingBlockIndexBbt (fullRange c shift h) c (packed fun _ => true) b =
      (c.totalBlks : Int) - 1 := by
  have hpos : 0 < c.totalBlks := Nat.pos_of_mul_pos_right (Nat.zero_lt_of_lt hin)
  rw [getMappingBlockIndexBbt_of_some (blockRange_fullRange_of_lt hin), toInt_fullRange_of_lt hlt]
  exact mapBlock_of_bad (bbtBlockIsBad_packed _) (by omega) (by omega)

theorem noRange_iff_of_le (h : c.totalBlks * 2 ^ shift < 0x100000000) (hb : c.totalBlks ≤ b)
    (hint : b < 0x80000000) :
    (∀ buf, getMappingBlockIndexBbt (noRange shift) c buf b =
      getMappingBlockIndexBbt (fullRange c shift h) c buf b) ↔
      c.totalBlks < 2 ^ shift ∧ (0x80000000 ≤ c.totalBlks * 2 ^ shift ∨
        c.totalBlks * 2 ^ shift ≤ b * 2 ^ shift % 0x100000000) := by
  constructor
  · intro heq
    have hall := heq (packed fun _ => true)
    have hdiv : c.totalBlks / 2 ^ shift ≤ c.totalBlks := Nat.div_le_self _ _
    have hlow : c.totalBlks < 2 ^ shift := by
      refine Nat.lt_of_not_le fun hpow => ?_
      have hpos : 0 < c.totalBlks := Nat.lt_of_lt_of_le (Nat.two_pow_pos shift) hpow
      rw [noRange_allBad hb hpow] at hall
      rcases Nat.lt_or_ge (b * 2 ^ shift % 0x100000000) (c.totalBlks * 2 ^ shift) with hin | hout
      · rcases Nat.lt_or_ge (c.totalBlks * 2 ^ shift) 0x80000000 with hlt | hge
        · rw [fullRange_allBad h hlt hb hin] at hall
          have hzero : shift = 0 := (div_eq_self_iff hpos).mp (by omega)
          rw [hzero, Nat.pow_zero] at hin
          omega
        · exact absurd (lt_pow_of_le hge) (Nat.not_lt.mpr hpow)
      · rw [getMappingBlockIndexBbt_of_none (blockRange_fullRange_of_le hout)] at hall
        omega
    refine ⟨hlow, ?_⟩
    by_contra hmoved
    rw [not_or, Nat.not_le, Nat.not_le] at hmoved
    rw [noRange_of_lt hlow, fullRange_allBad h hmoved.1 hb hmoved.2] at hall
    omega
  · rintro ⟨hpow, hstay⟩ buf
    rw [noRange_of_lt hpow]
    rcases hstay with hneg | hout
    · rw [fullRange_of_le h hneg]
    · rw [getMappingBlockIndexBbt_of_none (blockRange_fullRange_of_le hout)]

/-- Block numbers are `int`. -/
theorem noRange_agrees_iff (h : c.totalBlks * 2 ^ shift < 0x100000000) (hint : b < 0x80000000) :
    (∀ buf, getMappingBlockIndexBbt (noRange shift) c buf b =
      getMappingBlockIndexBbt (fullRange c shift h) c buf b) ↔ Agrees c shift b := by
  unfold Agrees
  split
  next hb => exact noRange_iff_of_lt h hb
  next hb => exact noRange_iff_of_le h (by omega) hint

/-- A chip of 1024 blocks of one byte. -/
theorem noRange_agrees_bytes : smallBbt.totalBlks = 1024 ∧
    ∀ buf, getMappingBlockIndexBbt (noRange 0) smallBbt buf 5 =
      getMappingBlockIndexBbt (fullRange smallBbt 0 (by decide)) smallBbt buf 5 :=
  ⟨rfl, (noRange_agrees_iff (by decide) (by decide)).mpr (.inl rfl)⟩

/-- With blocks of 128 KiB, block 0 stays where it is although it is bad. -/
theorem not_noRange_agrees :
    getMappingBlockIndexBbt (noRange 17) smallBbt (packed fun b => b == 0) 0 = 0 ∧
      getMappingBlockIndexBbt (fullRange smallBbt 17 (by decide)) smallBbt
        (packed fun b => b == 0) 0 = 1 := by
  decide +kernel

end NoRange

end Rooter.Bmt
