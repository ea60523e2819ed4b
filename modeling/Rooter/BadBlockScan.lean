import Mathlib.Order.Monotone.Basic
import Rooter.BadBlockRemap

/-!
# From the scan on

`scan_bad_blocks` leaves both tables in increasing order, the pool behind the mapped area.
From there on logical blocks stay apart exactly if the two tables do not overlap.  The limit
on the number of blocks in `mtk_bmt_init_v2` does not see to that.
-/

namespace Rooter.Bmt

open List Function

open Execution (Steps)

variable {Page : Type} {blank : Page} {encode : Words → Nat → Page} {c : Chip}

/-! ### The loops -/

section Scan

variable {block : Nat}

theorem findValidBlockLoop_spec (left block : Nat) :
    findValidBlockLoop c left block ≠ 0 →
      block ≤ findValidBlockLoop c left block ∧
        findValidBlockLoop c left block < c.totalBlks := by
  fun_induction findValidBlockLoop c left block with
  | case1 => exact absurd rfl
  | case2 => exact absurd rfl
  | case3 block hlt hbad left ih =>
    intro h
    have ⟨hle, hlt'⟩ := ih h
    exact ⟨by omega, hlt'⟩
  | case4 left block hlt hgood => exact fun _ => ⟨Nat.le_refl _, Nat.lt_of_not_le hlt⟩

theorem findValidBlock_spec (h : findValidBlock c block ≠ 0) :
    block ≤ findValidBlock c block ∧ findValidBlock c block < c.totalBlks :=
  findValidBlockLoop_spec _ _ h

def Increasing (w : Words) (n : Nat) : Prop := ∀ i j, i < j → j < n → w i < w j

variable {w : Words}

theorem Increasing.update {n v : Nat} (h : Increasing w n) (hn : 0 < n) (hv : w (n - 1) < v) :
    Increasing (update w n v) (n + 1) := by
  intro i j hij hj
  rw [update_of_ne (by omega)]
  rcases Nat.lt_succ_iff_lt_or_eq.mp hj with hlt | rfl
  · rw [update_of_ne (by omega)]
    exact h i j hij hlt
  · rw [update_self]
    rcases Nat.lt_or_eq_of_le (Nat.le_sub_one_of_lt hij) with hlt | rfl
    · exact Nat.lt_trans (h i (j - 1) hlt (by omega)) hv
    · exact hv

theorem Increasing.le {n : Nat} (h : Increasing w n) : ∀ i < n, i ≤ w i := by
  intro i
  induction i with
  | zero => exact fun _ => Nat.zero_le _
  | succ i ih => exact fun hi => Nat.lt_of_le_of_lt (ih (by omega)) (h i (i + 1) (by omega) hi)

theorem increasing_scanArea : ∀ n i (w w' : Words), 0 < i → Increasing w i →
    scanArea c n i w = some w' → Increasing w' (i + n) := by
  intro n
  induction n with
  | zero =>
    intro i w w' _ hw h
    cases h
    exact hw
  | succ n ih =>
    intro i w w' hi hw h
    rw [scanArea] at h
    split at h
    · cases h
    next hfound =>
      have hle := (findValidBlock_spec hfound).1
      rw [Nat.add_comm n 1, ← Nat.add_assoc]
      exact ih (i + 1) _ _ (by omega) (hw.update hi hle) h

/-- The slots below `i` when the scan of the pool has come to `block`. -/
structure Pool (c : Chip) (pba i block : Nat) (w : Words) : Prop where
  pba_le : pba ≤ block
  count : i ≤ block
  le_total : block ≤ c.totalBlks
  le_block : ∀ j < i, pba ≤ w (c.blockAt j)
  block_lt : ∀ j k, j < k → k < i → w (c.blockAt j) < w (c.blockAt k)
  lt_block : ∀ j < i, w (c.blockAt j) < block
  free : ∀ j < i, w (c.mappedAt j) = noMapped

variable {pba : Nat}

theorem pool_nil (hpba : pba ≤ c.totalBlks) : Pool c pba 0 pba w :=
  ⟨Nat.le_refl _, Nat.zero_le _, hpba, by simp, by simp, by simp, by simp⟩

theorem Pool.append {i block' : Nat} (h : Pool c pba i block w) (hle : block ≤ block')
    (hlt : block' < c.totalBlks) :
    Pool c pba (i + 1) (block' + 1) (update (update w (c.blockAt i) block')
      (c.mappedAt i) noMapped) := by
  have hcount := h.count
  have hpba := h.pba_le
  have hself : update (update w (c.blockAt i) block') (c.mappedAt i) noMapped
      (c.blockAt i) = block' := by
    rw [update_of_ne (mappedAt_ne_blockAt i i).symm, update_self]
  have hold : ∀ j < i, update (update w (c.blockAt i) block') (c.mappedAt i)
      noMapped (c.blockAt j) = w (c.blockAt j) := by
    intro j hj
    rw [update_of_ne (mappedAt_ne_blockAt i j).symm, update_of_ne (blockAt_ne (by omega))]
  refine ⟨by omega, by omega, hlt, ?_, ?_, ?_, ?_⟩
  · intro j hj
    rcases Nat.lt_succ_iff_lt_or_eq.mp hj with hj | rfl
    · rw [hold j hj]
      exact h.le_block j hj
    · omega
  · intro j k hjk hk
    rw [hold j (by omega)]
    rcases Nat.lt_succ_iff_lt_or_eq.mp hk with hk | rfl
    · rw [hold k hk]
      exact h.block_lt j k hjk hk
    · rw [hself]
      exact Nat.lt_of_lt_of_le (h.lt_block j hjk) hle
  · intro j hj
    rcases Nat.lt_succ_iff_lt_or_eq.mp hj with hj | rfl
    · rw [hold j hj]
      have hlt := h.lt_block j hj
      omega
    · rw [hself]
      exact Nat.lt_succ_self _
  · intro j hj
    rcases Nat.lt_succ_iff_lt_or_eq.mp hj with hj | rfl
    · rw [update_of_ne (mappedAt_ne (by omega)), update_of_ne (mappedAt_ne_blockAt j i)]
      exact h.free j hj
    · rw [update_self]

theorem pool_scanPool : ∀ fuel i block (w : Words), Pool c pba i block w →
    ∃ block', Pool c pba (scanPool c fuel i block w).2 block' (scanPool c fuel i block w).1 := by
  intro fuel
  induction fuel with
  | zero => exact fun i block w h => ⟨block, h⟩
  | succ fuel ih =>
    intro i block w h
    rw [scanPool]
    split
    · exact ⟨block, h⟩
    next hfound =>
      have ⟨hle, hlt⟩ := findValidBlock_spec hfound
      exact ih _ _ _ (h.append hle hlt)

theorem scanPool_words {l : Nat} (hl : l < c.tableSize) : ∀ fuel i block (w : Words),
    (scanPool c fuel i block w).1 l = w l := by
  intro fuel
  induction fuel with
  | zero => exact fun _ _ _ => rfl
  | succ fuel ih =>
    intro i block w
    rw [scanPool]
    split
    · rfl
    · rw [ih, update_of_ne (ne_mappedAt_of_lt hl i), update_of_ne (ne_blockAt_of_lt hl i)]

/-- The tables after the scan, with the pool from `pba` on. -/
structure Scanned (c : Chip) (pba : Nat) (t : Table) : Prop where
  pos : 0 < pba
  poolLba_le : c.poolLba ≤ pba
  idx_lt : t.bmtBlkIdx < 0xffff
  le_block : ∀ i ≤ t.bmtBlkIdx, pba ≤ t.block c i
  block_lt : ∀ i j, i < j → j ≤ t.bmtBlkIdx → t.block c i < t.block c j
  table : t.mapped c t.bmtBlkIdx = bmtMapped
  free : ∀ i < t.bmtBlkIdx, t.mapped c i = noMapped
  area : c.poolLba ≤ c.tableSize →
    Increasing t.words c.poolLba ∧ ∀ l < c.poolLba, t.words l < pba

theorem Pool.scanned {n : Nat} (h : Pool c pba (n + 1) block w) (hpos : 0 < pba)
    (hlba : c.poolLba ≤ pba)
    (harea : c.poolLba ≤ c.tableSize → Increasing w c.poolLba ∧ ∀ l < c.poolLba, w l < pba) :
    Scanned c pba ⟨update w (c.mappedAt n) bmtMapped, n⟩ := by
  have hblock (i : Nat) : Table.block c ⟨update w (c.mappedAt n) bmtMapped, n⟩ i =
      w (c.blockAt i) :=
    update_of_ne (mappedAt_ne_blockAt n i).symm _ _
  have hidx : n < 0xffff := by
    have hcount := h.count
    have hle := h.le_total
    have htotal := c.totalBlks_lt
    omega
  refine ⟨hpos, hlba, hidx, ?_, ?_, update_self _ _ _, ?_, ?_⟩
  · intro i hi
    rw [hblock]
    exact h.le_block i (Nat.lt_succ_of_le hi)
  · intro i j hij hj
    rw [hblock, hblock]
    exact h.block_lt i j hij (Nat.lt_succ_of_le hj)
  · intro i hi
    exact (update_of_ne (mappedAt_ne (Nat.ne_of_lt hi)) _ _).trans
      (h.free i (Nat.lt_succ_of_lt hi))
  · intro hsep
    have hwords : ∀ l < c.poolLba, update w (c.mappedAt n) bmtMapped l = w l :=
      fun l hl => update_of_ne (ne_mappedAt_of_lt (by omega) n) _ _
    obtain ⟨hinc, hlt⟩ := harea hsep
    refine ⟨fun i j hij hj => ?_, fun l hl => ?_⟩
    · dsimp only
      rw [hwords i (by omega), hwords j hj]
      exact hinc i j hij hj
    · dsimp only
      rw [hwords l hl]
      exact hlt l hl

theorem Increasing.lt_last {n : Nat} (h : Increasing w (1 + (n - 1))) :
    ∀ l < n, w l < w (n - 1) + 1 := by
  intro l hl
  rcases Nat.lt_or_eq_of_le (Nat.le_sub_one_of_lt hl) with hlt | rfl
  · exact Nat.lt_succ_of_lt (h l (n - 1) hlt (by omega))
  · exact Nat.lt_succ_self _

/-- A scan that succeeds has filled `w` with the mapped area and `w'` with the pool. -/
theorem exists_scanPool {buf : Words} {t : Table} (h : scanBadBlocks c buf = some t) :
    ∃ w w' n, scanArea c (c.poolLba - 1) 1 (update buf 0 0) = some w ∧
      w (c.poolLba - 1) + 1 < c.totalBlks - 2 ∧
      scanPool c c.totalBlks 0 (w (c.poolLba - 1) + 1) w = (w', n + 1) ∧
      t = ⟨update w' (c.mappedAt n) bmtMapped, n⟩ := by
  unfold scanBadBlocks at h
  rw [Option.bind_eq_bind, Option.bind_eq_some_iff] at h
  obtain ⟨w, harea, h⟩ := h
  dsimp only at h
  split at h
  · cases h
  next hroom =>
    rcases hscan : scanPool c c.totalBlks 0 (w (c.poolLba - 1) + 1) w with ⟨w', _ | n⟩
    · rw [hscan] at h
      cases h
    · rw [hscan] at h
      cases h
      exact ⟨w, w', n, harea, Nat.lt_of_not_le hroom, hscan, rfl⟩

theorem exists_scanned {buf : Words} {t : Table} (h : scanBadBlocks c buf = some t) :
    ∃ pba, Scanned c pba t := by
  obtain ⟨w, w', n, harea, hroom, hscan, rfl⟩ := exists_scanPool h
  have hinc : Increasing w (1 + (c.poolLba - 1)) :=
    increasing_scanArea _ _ _ _ Nat.one_pos fun _ _ _ _ => by omega harea
  have hlba := hinc.le (c.poolLba - 1) (by omega)
  obtain ⟨block, hpool⟩ := pool_scanPool c.totalBlks 0 (w (c.poolLba - 1) + 1) w
    (pool_nil (c := c) (by omega))
  have hwords : ∀ l < c.tableSize,
      (scanPool c c.totalBlks 0 (w (c.poolLba - 1) + 1) w).1 l = w l :=
    fun l hl => scanPool_words hl _ _ _ _
  rw [hscan] at hpool hwords
  refine ⟨_, hpool.scanned (by omega) (by omega) fun hsep => ⟨?_, ?_⟩⟩
  · intro i j hij hj
    rw [hwords i (by omega), hwords j (by omega)]
    exact hinc i j hij (by omega)
  · intro l hl
    rw [hwords l (by omega)]
    exact hinc.lt_last l hl

theorem Scanned.valid {t : Table} (h : Scanned c pba t) (hsep : c.poolLba ≤ c.tableSize) :
    Valid c pba t := by
  obtain ⟨hinc, hlt⟩ := h.area hsep
  refine ⟨h.pos, h.poolLba_le, h.le_block, h.block_lt, ?_, fun l hl => .inl (hlt l hl), ?_⟩
  · rw [h.table]
    decide
  · intro i hi j hj
    exact StrictMonoOn.injOn (fun i _ j hj hij => hinc i j hij hj) hi hj

end Scan

/-! ### The tables stay apart -/

theorem Valid.apart {s : State Page} {pba : Nat} (hv : Valid c pba s.table)
    (hsep : c.poolLba ≤ c.tableSize) : Apart blank encode c s where
  injective := hv.injective
  ne_table i hi := Nat.ne_of_lt (hv.ne_block (hv.used i hi))
  kept _ _ _ hok _ hl hne := hv.kept hsep hok hl hne

theorem Scanned.staysApart {pba : Nat} {t : Table} (h : Scanned c pba t)
    (hsep : c.poolLba ≤ c.tableSize) : StaysApart blank encode c t := by
  intro flash results s hrun
  have hvalid : Valid c pba s.table := by
    refine @Steps.invariant _ _ _ _ _ _ (fun s => Valid c pba s.table) hrun (h.valid hsep) ?_
    rintro s a _ hv hok ⟨⟩
    exact hv.step hsep hok
  exact hvalid.apart hsep

/-! ### Tables that overlap -/

theorem upload_table_of_results {s : State Page} (hresults : s.results = [])
    (hmapped : s.table.mapped c s.table.bmtBlkIdx ≠ normalMapped) :
    (s.upload blank encode c).table = s.table := by
  unfold State.upload State.uploadBmt
  rw [if_neg hmapped]
  simp [State.bbtNandErase, State.writeBmt, State.operate, hresults]

theorem freeSlot_of_first {t : Table} (hidx : 0 < t.bmtBlkIdx) (hblock : t.block c 0 ≠ 0)
    (hfree : t.mapped c 0 = noMapped) : t.freeSlot c = some 0 := by
  have hrange : range t.bmtBlkIdx = 0 :: (range (t.bmtBlkIdx - 1)).map Nat.succ := by
    rw [← range_succ_eq_map, Nat.sub_add_cancel hidx]
  unfold Table.freeSlot
  rw [hrange, find?_cons_of_pos (by exact decide_eq_true ⟨hblock, hfree⟩)]

/-- The entry `bb_tbl[table_size]` is the first slot of the pool.  If that is all there is of the
    pool, it is the block of the table; otherwise the first block that is remapped gets it too. -/
theorem Scanned.not_staysApart {pba : Nat} {t : Table} (h : Scanned c pba t)
    (hpos : 0 < c.tableSize) (hover : c.tableSize < c.poolLba) : ¬ StaysApart blank encode c t := by
  intro hapart
  rcases Nat.eq_zero_or_pos t.bmtBlkIdx with hidx | hidx
  · refine (hapart (fun _ => blank) [] _ .refl).ne_table c.tableSize hover ?_
    rw [hidx]
    rfl
  · have hfree := h.free 0 hidx
    have hblock : t.block c 0 ≠ 0 :=
      Nat.ne_of_gt (Nat.lt_of_lt_of_le h.pos (h.le_block 0 (Nat.zero_le _)))
    have htaken := taken_occupy (s := ⟨t, fun _ => blank, []⟩) blank hidx hfree 0 0 0
    have hstep := remapBlockV2_of_slot blank encode (s := ⟨t, fun _ => blank, []⟩)
      (freeSlot_of_first hidx hblock hfree) 0 0 0
    have hmapped : (t.take c 0 0).mapped c t.bmtBlkIdx ≠ normalMapped := by
      rw [mapped_take_of_ne hpos (by omega), h.table]
      decide
    have htable : (State.step blank encode c ⟨t, fun _ => blank, []⟩ (.remap 0 0 0)).table =
        t.take c 0 0 := by
      unfold State.step
      dsimp only
      rw [hstep]
      exact (upload_table_of_results rfl (htaken.table ▸ hmapped)).trans htaken.table
    have hok : Accepted blank encode c ⟨t, fun _ => blank, []⟩ (.remap 0 0 0) := by
      refine ⟨?_, ?_⟩
      · rintro _ _ _ ⟨⟩
        omega
      · rw [htable]
        exact Nat.ne_of_lt h.idx_lt
    have hinj := (hapart _ _ _ (Relation.ReflTransGen.single ⟨_, hok, rfl⟩)).injective 0
      (by omega) c.tableSize hover
    rw [htable] at hinj
    exact Nat.ne_of_lt hpos (hinj (block_take hpos 0).symm)

/-- Blocks stay apart, and apart from the table, exactly if `bb_tbl` does not reach into
    `bmt_tbl`. -/
theorem staysApart_iff {buf : Words} {t : Table} (hpos : 0 < c.tableSize)
    (hscan : scanBadBlocks c buf = some t) :
    StaysApart blank encode c t ↔ c.poolLba ≤ c.tableSize := by
  obtain ⟨pba, h⟩ := exists_scanned hscan
  refine ⟨fun hapart => Nat.le_of_not_lt fun hover => ?_, h.staysApart⟩
  exact h.not_staysApart hpos hover hapart

/-- A chip of 100 blocks, block 2 bad, as `mtk_bmt_init_v2` sets it up with the default sizes of
    the table and of the pool. -/
def smallChip : Chip where
  tableSize := 0x2000
  totalBlks := 100
  poolLba := 20
  bbMax := 2
  pgSize := 2048
  pages := 64
  bmtPgs := 17
  bad block := block == 2
  totalBlks_lt := by decide

theorem staysApart_smallChip : smallChip.initV2 80 = some smallChip ∧
    ∃ t, scanBadBlocks smallChip (fun _ => 0xffff) = some t ∧
      t.bmtBlkIdx = 78 ∧ StaysApart 0xff (fun w i => w i) smallChip t := by
  obtain ⟨t, hscan, hidx⟩ : ∃ t ∈ scanBadBlocks smallChip (fun _ => 0xffff),
      t.bmtBlkIdx = 78 := by decide +kernel
  exact ⟨rfl, t, hscan, hidx, (staysApart_iff (by decide) hscan).mpr (by decide)⟩

/-! #### A chip that is let through -/

section Good

variable (hgood : ∀ block, c.bad block = false)

include hgood

theorem findValidBlock_of_good {block : Nat} (hlt : block < c.totalBlks) :
    findValidBlock c block = block := by
  unfold findValidBlock findValidBlockLoop
  rw [if_neg (by omega), hgood]
  rfl

theorem scanArea_of_good : ∀ n i (w : Words), w i = i → i + n < c.totalBlks →
    ∃ w', scanArea c n (i + 1) w = some w' ∧ w' (i + n) = i + n := by
  intro n
  induction n with
  | zero => exact fun i w hw _ => ⟨w, rfl, hw⟩
  | succ n ih =>
    intro i w hw hlt
    rw [scanArea, Nat.add_sub_cancel, hw, findValidBlock_of_good hgood (by omega)]
    have ⟨w', hscan, hlast⟩ := ih (i + 1) (update w (i + 1) (i + 1))
      (update_self _ _ _) (by omega)
    exact ⟨w', hscan, by rwa [Nat.add_comm n 1, ← Nat.add_assoc]⟩

omit hgood in
theorem le_scanPool : ∀ fuel i block (w : Words), i ≤ (scanPool c fuel i block w).2 := by
  intro fuel
  induction fuel with
  | zero => exact fun i _ _ => Nat.le_refl i
  | succ fuel ih =>
    intro i block w
    rw [scanPool]
    split
    · exact Nat.le_refl i
    · exact Nat.le_of_succ_le (ih _ _ _)

theorem exists_scan_of_good (buf : Words) (hpos : 0 < c.poolLba)
    (hroom : c.poolLba + 2 < c.totalBlks) : ∃ t, scanBadBlocks c buf = some t := by
  obtain ⟨w, harea, hlast⟩ := scanArea_of_good hgood (c.poolLba - 1) 0 (update buf 0 0)
    (update_self _ _ _) (by omega)
  rw [Nat.zero_add] at harea hlast
  have hpool : 1 ≤ (scanPool c c.totalBlks 0 c.poolLba w).2 := by
    rw [show c.totalBlks = c.totalBlks - 1 + 1 by omega, scanPool,
      findValidBlock_of_good hgood (by omega), if_neg (by omega)]
    exact le_scanPool _ _ _ _
  unfold scanBadBlocks
  rw [harea, Option.bind_eq_bind, Option.bind_some]
  rw [hlast, Nat.sub_add_cancel hpos, if_neg (by omega)]
  rcases hscan : scanPool c c.totalBlks 0 c.poolLba w with ⟨w', _ | n⟩
  · rw [hscan] at hpool
    exact absurd hpool (by omega)
  · exact ⟨_, rfl⟩

end Good

/-- A chip of 8300 blocks without a bad one, and the default size of the table. -/
def largeChip : Chip where
  tableSize := 0x2000
  totalBlks := 8300
  poolLba := 0
  bbMax := 0
  pgSize := 2048
  pages := 64
  bmtPgs := 0
  bad _ := false
  totalBlks_lt := by decide

/-- With the default size of the pool, `bb_tbl` has 8220 entries, and `bmt_tbl` starts at
    number 8192. -/
theorem not_staysApart_largeChip : ∃ c, largeChip.initV2 80 = some c ∧ c.poolLba = 8220 ∧
    ∃ t, scanBadBlocks c (fun _ => 0xffff) = some t ∧
      ¬ StaysApart 0xff (fun w i => w i) c t := by
  obtain ⟨c, hc⟩ : ∃ c, largeChip.initV2 80 = some c := ⟨_, rfl⟩
  have hlba : c.poolLba = 8220 := by
    cases hc
    rfl
  obtain ⟨t, hscan⟩ : ∃ t, scanBadBlocks c (fun _ => 0xffff) = some t := by
    cases hc
    exact exists_scan_of_good (fun _ => rfl) _ (by decide) (by decide)
  obtain ⟨pba, h⟩ := exists_scanned hscan
  have hsize : c.tableSize = 0x2000 := by
    cases hc
    rfl
  exact ⟨c, hc, hlba, t, hscan, h.not_staysApart (by omega) (by omega)⟩

end Rooter.Bmt
