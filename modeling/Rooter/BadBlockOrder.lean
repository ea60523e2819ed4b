import Rooter.BadBlockScan

/-!
# The order of the scan

`find_valid_block` gives the next good block, so the loops of `scan_bad_blocks` list good blocks
without leaving one out: the mapped area has the first ones, the pool those that follow.  The
list of the pool may be cut short, since a row of bad blocks that is too long ends it.

The lists are as they should be exactly if there is a mapped area and it does not reach into
the table of the pool.
-/

namespace Rooter.Bmt

open List Function

variable {c : Chip}

def Chip.good (c : Chip) : List Nat := (range c.totalBlks).filter fun b => !c.bad b

def Chip.goodFrom (c : Chip) (block : Nat) : List Nat :=
  (range' block (c.totalBlks - block)).filter fun b => !c.bad b

variable {block : Nat}

theorem goodFrom_zero (c : Chip) : c.goodFrom 0 = c.good := by
  unfold Chip.goodFrom Chip.good
  rw [Nat.sub_zero, range_eq_range']

theorem range'_of_lt (hlt : block < c.totalBlks) :
    range' block (c.totalBlks - block) =
      block :: range' (block + 1) (c.totalBlks - (block + 1)) := by
  rw [show c.totalBlks - block = c.totalBlks - (block + 1) + 1 by omega, range'_succ]

theorem goodFrom_of_bad (hlt : block < c.totalBlks) (hbad : c.bad block = true) :
    c.goodFrom block = c.goodFrom (block + 1) := by
  unfold Chip.goodFrom
  rw [range'_of_lt hlt, filter_cons_of_neg (by rw [hbad]; decide)]

theorem goodFrom_of_good (hlt : block < c.totalBlks) (hgood : c.bad block = false) :
    c.goodFrom block = block :: c.goodFrom (block + 1) := by
  unfold Chip.goodFrom
  rw [range'_of_lt hlt, filter_cons_of_pos (by rw [hgood]; rfl)]

/-! ### The loops -/

theorem goodFrom_findValidBlockLoop (left block : Nat) :
    findValidBlockLoop c left block ≠ 0 →
      c.goodFrom block =
        findValidBlockLoop c left block :: c.goodFrom (findValidBlockLoop c left block + 1) := by
  fun_induction findValidBlockLoop c left block with
  | case1 => exact absurd rfl
  | case2 => exact absurd rfl
  | case3 block hlt hbad left ih =>
    intro h
    rw [goodFrom_of_bad (by omega) hbad]
    exact ih h
  | case4 left block hlt hgood =>
    intro _
    exact goodFrom_of_good (by omega) (Bool.eq_false_iff.mpr hgood)

theorem goodFrom_findValidBlock (h : findValidBlock c block ≠ 0) :
    c.goodFrom block = findValidBlock c block :: c.goodFrom (findValidBlock c block + 1) :=
  goodFrom_findValidBlockLoop _ _ h

theorem scanArea_below : ∀ n i (w w' : Words), scanArea c n i w = some w' →
    ∀ l < i, w' l = w l := by
  intro n
  induction n with
  | zero =>
    rintro i w w' ⟨⟩ l _
    rfl
  | succ n ih =>
    intro i w w' h l hl
    rw [scanArea] at h
    split at h
    · cases h
    · rw [ih _ _ _ h l (by omega), update_of_ne (by omega)]

theorem goodFrom_scanArea : ∀ n i (w w' : Words), 0 < i → scanArea c n i w = some w' →
    c.goodFrom (w (i - 1) + 1) =
      (range' i n).map w' ++ c.goodFrom (w' (i + n - 1) + 1) := by
  intro n
  induction n with
  | zero =>
    rintro i w w' _ ⟨⟩
    rfl
  | succ n ih =>
    intro i w w' hi h
    rw [scanArea] at h
    split at h
    · cases h
    next hfound =>
      have hlast := scanArea_below _ _ _ _ h i (by omega)
      have hrest := ih (i + 1) _ _ (by omega) h
      rw [Nat.add_sub_cancel, update_self] at hrest
      rw [update_self] at hlast
      rw [goodFrom_findValidBlock hfound, hrest, range'_succ, map_cons, hlast,
        cons_append, Nat.add_right_comm i 1 n, Nat.add_assoc i n 1]

theorem scanPool_below : ∀ fuel i block (w : Words), ∀ j < i,
    (scanPool c fuel i block w).1 (c.blockAt j) = w (c.blockAt j) := by
  intro fuel
  induction fuel with
  | zero => exact fun _ _ _ _ _ => rfl
  | succ fuel ih =>
    intro i block w j hj
    rw [scanPool]
    split
    · rfl
    · rw [ih _ _ _ j (by omega), update_of_ne (mappedAt_ne_blockAt i j).symm,
        update_of_ne (blockAt_ne (by omega))]

/-- Slot by slot, the pool takes the next good block, as long as one is found. -/
theorem goodFrom_scanPool : ∀ fuel i block (w : Words), ∃ rest, c.goodFrom block =
    (range' i ((scanPool c fuel i block w).2 - i)).map
      (fun j => (scanPool c fuel i block w).1 (c.blockAt j)) ++ rest := by
  intro fuel
  induction fuel with
  | zero =>
    intro i block w
    refine ⟨c.goodFrom block, ?_⟩
    rw [scanPool, Nat.sub_self]
    rfl
  | succ fuel ih =>
    intro i block w
    rw [scanPool]
    split
    · refine ⟨c.goodFrom block, ?_⟩
      rw [Nat.sub_self]
      rfl
    next hfound =>
      have hself : update (update w (c.blockAt i) (findValidBlock c block))
          (c.mappedAt i) noMapped (c.blockAt i) = findValidBlock c block := by
        rw [update_of_ne (mappedAt_ne_blockAt i i).symm, update_self]
      generalize update (update w (c.blockAt i) (findValidBlock c block))
        (c.mappedAt i) noMapped = w' at hself
      obtain ⟨rest, hrest⟩ := ih (i + 1) (findValidBlock c block + 1) w'
      have hcount := le_scanPool (c := c) fuel (i + 1) (findValidBlock c block + 1) w'
      have hfirst := scanPool_below (c := c) fuel (i + 1) (findValidBlock c block + 1) w' i
        (by omega)
      generalize scanPool c fuel (i + 1) (findValidBlock c block + 1) w' = r at hrest hcount hfirst
      refine ⟨rest, ?_⟩
      rw [goodFrom_findValidBlock hfound, hrest, show r.2 - i = r.2 - (i + 1) + 1 by omega,
        range'_succ, map_cons, hfirst, hself, cons_append]

/-! ### The tables -/

/-- The tables after a scan: the mapped area has the first good blocks, the pool some of those
    that follow, without a gap; its last slot is the one of the table. -/
structure Ordered (c : Chip) (t : Table) : Prop where
  area : (range c.poolLba).map t.words = c.good.take c.poolLba
  pool : (range (t.bmtBlkIdx + 1)).map (t.block c) <+: c.good.drop c.poolLba
  table : ∀ i ≤ t.bmtBlkIdx, t.mapped c i = bmtMapped ↔ i = t.bmtBlkIdx
  disjoint : ∀ l < c.poolLba, ∀ i ≤ t.bmtBlkIdx, t.words l ≠ t.block c i

theorem Scanned.table_iff {pba : Nat} {t : Table} (h : Scanned c pba t) {i : Nat}
    (hi : i ≤ t.bmtBlkIdx) : t.mapped c i = bmtMapped ↔ i = t.bmtBlkIdx := by
  constructor
  · intro hmapped
    by_contra hne
    rw [h.free i (by omega)] at hmapped
    exact absurd hmapped (by decide)
  · rintro rfl
    exact h.table

/-- The good blocks of a chip that was scanned: those of the area, those of the pool, and others. -/
theorem exists_good_eq {buf : Words} {t : Table} (hzero : c.bad 0 = false)
    (hscan : scanBadBlocks c buf = some t) (hpos : 0 < c.poolLba)
    (hsep : c.poolLba ≤ c.tableSize) : ∃ rest, c.good =
      (range c.poolLba).map t.words ++
        ((range (t.bmtBlkIdx + 1)).map (t.block c) ++ rest) := by
  obtain ⟨w, w', n, harea, hroom, hpool, rfl⟩ := exists_scanPool hscan
  have hwords : ∀ l < c.poolLba, update w' (c.mappedAt n) bmtMapped l = w l := by
    intro l hl
    have hlt : l < c.tableSize := by omega
    have hkeep := scanPool_words hlt c.totalBlks 0 (w (c.poolLba - 1) + 1) w
    rw [hpool] at hkeep
    rw [update_of_ne (ne_mappedAt_of_lt hlt n)]
    exact hkeep
  have hw0 : w 0 = 0 := by
    rw [scanArea_below _ _ _ _ harea 0 Nat.one_pos, update_self]
  have hfirst : (range c.poolLba).map (update w' (c.mappedAt n) bmtMapped) =
      0 :: (range' 1 (c.poolLba - 1)).map w := by
    have hmap : (range c.poolLba).map (update w' (c.mappedAt n) bmtMapped) =
        (range c.poolLba).map w :=
      map_congr_left fun l hl => hwords l (mem_range.mp hl)
    obtain ⟨m, hm⟩ := Nat.exists_eq_add_of_lt hpos
    rw [hmap, hm, Nat.add_sub_cancel, range_eq_range', range'_succ, map_cons, hw0]
  have hslots : (range (n + 1)).map
      (Table.block c ⟨update w' (c.mappedAt n) bmtMapped, n⟩) =
        (range' 0 (n + 1)).map fun j => w' (c.blockAt j) := by
    rw [range_eq_range']
    refine map_congr_left fun j _ => ?_
    exact update_of_ne (mappedAt_ne_blockAt n j).symm _ _
  obtain ⟨rest, hrest⟩ := goodFrom_scanPool c.totalBlks 0 (w (c.poolLba - 1) + 1) w
  rw [hpool, Nat.sub_zero] at hrest
  have hgood := goodFrom_scanArea _ _ _ _ Nat.one_pos harea
  rw [update_self, Nat.add_sub_cancel' hpos, hrest] at hgood
  refine ⟨rest, ?_⟩
  rw [hfirst, hslots, ← goodFrom_zero, goodFrom_of_good (by omega) hzero, cons_append, hgood]

/-- The scan lists the blocks in order exactly if there is a mapped area and it does not reach
    into the table of the pool. -/
theorem scanBadBlocks_ordered_iff {buf : Words} {t : Table} (hzero : c.bad 0 = false)
    (hscan : scanBadBlocks c buf = some t) :
    Ordered c t ↔ 0 < c.poolLba ∧ c.poolLba ≤ c.tableSize := by
  obtain ⟨pba, h⟩ := exists_scanned hscan
  constructor
  · intro hord
    refine ⟨Nat.pos_of_ne_zero fun hnone => ?_, Nat.le_of_not_lt fun hover => ?_⟩
    · -- the pool would have to begin with block 0
      have hroom : 0 < c.totalBlks := by
        obtain ⟨w, _, _, _, hroom, _⟩ := exists_scanPool hscan
        omega
      have hpool := hord.pool
      rw [hnone, drop_zero, ← goodFrom_zero, goodFrom_of_good hroom hzero,
        range_succ_eq_map, map_cons, cons_prefix_cons] at hpool
      have hle := h.le_block 0 (Nat.zero_le _)
      have hpos := h.pos
      omega
    · exact hord.disjoint c.tableSize hover 0 (Nat.zero_le _) rfl
  · rintro ⟨hpos, hsep⟩
    obtain ⟨rest, hgood⟩ := exists_good_eq hzero hscan hpos hsep
    have hlen : ((range c.poolLba).map t.words).length = c.poolLba := by simp
    refine ⟨?_, ?_, fun i hi => h.table_iff hi, fun l hl i hi => ?_⟩
    · rw [hgood, take_left' hlen]
    · rw [hgood, drop_left' hlen]
      exact prefix_append _ _
    · have hlt := (h.area hsep).2 l hl
      have hle := h.le_block i hi
      omega

theorem scanBadBlocks_ordered_smallChip : smallChip.initV2 80 = some smallChip ∧
    ∃ t, scanBadBlocks smallChip (fun _ => 0xffff) = some t ∧ t.bmtBlkIdx = 78 ∧
      Ordered smallChip t := by
  obtain ⟨t, hscan, hidx⟩ : ∃ t ∈ scanBadBlocks smallChip (fun _ => 0xffff),
      t.bmtBlkIdx = 78 := by decide +kernel
  exact ⟨rfl, t, hscan, hidx, (scanBadBlocks_ordered_iff rfl hscan).mpr (by decide)⟩

/-- A chip that `mtk_bmt_init_v2` lets through, without a bad block.  The entry 8192 of the
    mapped area is the first slot of the pool. -/
theorem not_ordered_largeChip : ∃ c, largeChip.initV2 80 = some c ∧ c.bad 0 = false ∧
    ∃ t, scanBadBlocks c (fun _ => 0xffff) = some t ∧ 8192 < c.poolLba ∧
      t.words 8192 = t.block c 0 ∧ ¬ Ordered c t := by
  obtain ⟨c, hc⟩ : ∃ c, largeChip.initV2 80 = some c := ⟨_, rfl⟩
  obtain ⟨t, hscan⟩ : ∃ t, scanBadBlocks c (fun _ => 0xffff) = some t := by
    cases hc
    exact exists_scan_of_good (fun _ => rfl) _ (by decide) (by decide)
  have hlt : 8192 < c.poolLba := by
    cases hc
    decide
  have hsame : t.words 8192 = t.block c 0 := by
    cases hc
    rfl
  refine ⟨c, hc, ?_, t, hscan, hlt, hsame, fun h => ?_⟩
  · cases hc
    rfl
  · exact h.disjoint 8192 hlt 0 (Nat.zero_le _) hsame

end Rooter.Bmt
