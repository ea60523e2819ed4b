import Rooter.BadBlockScan

/-!
# Repairing the mapping

Three more operations change `bb_tbl`: `unmap_block_v2` gives a logical block the physical
block of the same number, `mtk_bmt_debug_repair` copies the content there too, and the value
100 in `mtk_bmt_debug_v2` frees the slots of the pool that no logical block uses any more.

Each of them can put two logical blocks on one physical block.  After a scan that met a bad
block the physical block of the same number may hold another logical block.  The search for
the slots in use leaves out logical block 0 and the two blocks in front of `pool_lba`, so
that their slots are given away.  `Harmless` excludes these cases, and then the mapping stays
injective, even when the table could not be stored.
-/

namespace Rooter.Bmt

open List Function

open Execution (Steps Admitted)

variable {Page : Type}

/-! ### The operations -/

/-- `bmtd.mtd->size >> bmtd.blk_shift`, where `mtk_bmt_init_v2` has put `pmt_block`. -/
def Chip.mainBlocks (c : Chip) : Nat := (c.poolLba + 0x10000 - 2) % 0x10000

def clearBmtTbl (c : Chip) (buf : Words) : Words := fun i => if c.tableSize ≤ i then 0 else buf i

/-- `mtk_bmt_get_mapping_mask`: the slots that get a bit. -/
def getMappingMask (c : Chip) (t : Table) : List Nat :=
  (range' 1 (c.mainBlocks - 1)).filterMap fun i =>
    if t.words i = i then none
    else (range t.bmtBlkIdx).find? fun k => t.words i = t.block c k

def freeUnused (c : Chip) (used : List Nat) : List Nat → Words × Nat → Words × Nat
  | [], wn => wn
  | i :: slots, (w, n) =>
      if w (c.mappedAt i) = normalMapped ∧ i ∉ used then
        freeUnused c used slots (update w (c.mappedAt i) noMapped, n + 1)
      else freeUnused c used slots (w, n)

namespace State

variable (blank : Page) (encode : Words → Nat → Page) (c : Chip)

def unmapBlockV2 (s : State Page) (block : Nat) : State Page :=
  (s.setWord block block).upload blank encode c

/-- `mtk_bmt_debug_repair`; the block number is cut to 16 bits for `unmap_block_v2`. -/
def mtkBmtDebugRepair (inRange : Nat → Bool) (s : State Page) (block : Nat) : State Page :=
  let prevBlock := s.getMappingBlockIndexV2 c inRange block
  let s := s.unmapBlockV2 blank encode c (block % 0x10000)
  let newBlock := s.getMappingBlockIndexV2 c inRange block
  if prevBlock = newBlock then s
  else
    bbtNandCopy c newBlock prevBlock (c.pages * c.pgSize) c.pages 0
      (s.bbtNandErase blank c newBlock).1

/-- `mtk_bmt_debug_v2`; value 0 only prints. -/
def mtkBmtDebugV2 (s : State Page) (val : Nat) : State Page :=
  let used := getMappingMask c s.table
  if val = 100 then
    match freeUnused c used (range (s.table.bmtBlkIdx + 1)) (s.table.words, 0) with
    | (_, 0) => s
    | (w, _ + 1) => { s with table.words := w }.upload blank encode c
  else s

end State

inductive Repair where
  | store
  | remap (block mappedBlock copyLen : Nat)
  | unmap (block : Nat)
  | repair (block : Nat)
  | debug (val : Nat)

def State.change (blank : Page) (encode : Words → Nat → Page) (c : Chip) (inRange : Nat → Bool)
    (s : State Page) : Repair → State Page
  | .store => s.upload blank encode c
  | .remap block mappedBlock copyLen =>
      (s.remapBlockV2 blank encode c block mappedBlock copyLen).1
  | .unmap block => s.unmapBlockV2 blank encode c block
  | .repair block => s.mtkBmtDebugRepair blank encode c inRange block
  | .debug val => s.mtkBmtDebugV2 blank encode c val

/-! ### Storing the table -/

variable {blank : Page} {encode : Words → Nat → Page} {c : Chip} {inRange : Nat → Bool}

section Store

variable {s s₁ s' : State Page} {n : Nat}

/-- What `upload_bmt` does to the tables, whether it fails or not: slots that are not taken
    may lose their block. -/
structure Dropped (c : Chip) (s s' : State Page) : Prop where
  words : ∀ l < c.tableSize, s'.table.words l = s.table.words l
  mapped : ∀ k, s'.table.mapped c k = s.table.mapped c k
  block : ∀ k, s'.table.block c k = s.table.block c k ∨
    s'.table.block c k = 0 ∧ s.table.mapped c k ≠ normalMapped

theorem dropped_of_table (h : s'.table = s.table) : Dropped c s s' := by
  constructor
  · intro l _
    rw [h]
  · intro k
    rw [h]
  · intro k
    exact .inl (by rw [h])

theorem Dropped.retreat (h : Dropped c (s₁.setWord (c.blockAt n) 0) s')
    (hmapped : s.table.mapped c n ≠ normalMapped) (htable : s₁.table = s.table) :
    Dropped c s s' := by
  have hmap : ∀ k, (s₁.setWord (c.blockAt n) 0).table.mapped c k = s.table.mapped c k := by
    intro k
    exact (update_of_ne (mappedAt_ne_blockAt k n) _ _).trans (by rw [htable]; rfl)
  refine ⟨fun l hl => ?_, fun k => (h.mapped k).trans (hmap k), fun k => ?_⟩
  · exact (h.words l hl).trans ((update_of_ne (ne_blockAt_of_lt hl n) _ _).trans
      (by rw [htable]))
  · rcases h.block k with heq | ⟨hzero, hfree⟩
    · by_cases hkn : k = n
      · subst hkn
        exact .inr ⟨heq.trans (update_self _ _ _), hmapped⟩
      · refine .inl (heq.trans ((update_of_ne (blockAt_ne hkn) _ _).trans ?_))
        rw [htable]
        rfl
    · exact .inr ⟨hzero, hmap k ▸ hfree⟩

theorem dropped_uploadBmt : ∀ n (s s' : State Page) r,
    s.uploadBmt blank encode c n = (s', r) → Dropped c s s' := by
  refine uploadBmt_induction ?_ ?_ ?_
  · intro _ _
    exact dropped_of_table rfl
  · intro _ _ _ _ hput
    exact dropped_of_table hput.table
  · intro _ _ _ _ _ hmapped hfailed ih
    exact ih.retreat hmapped hfailed.table

variable (blank encode c) in
/-- The index after storing: either the failure, or one above every slot that is taken. -/
theorem upload_cases (s : State Page) : ∃ s' n,
    s.upload blank encode c = { s' with table.bmtBlkIdx := n } ∧ Dropped c s s' ∧
      (n = 0xffff ∨ n ≤ s.table.bmtBlkIdx ∧
        ∀ k, n ≤ k → k ≤ s.table.bmtBlkIdx → s.table.mapped c k ≠ normalMapped) := by
  unfold State.upload
  rcases hup : s.uploadBmt blank encode c (s.table.bmtBlkIdx + 1) with ⟨s', _ | n⟩
  · exact ⟨s', 0xffff, rfl, dropped_uploadBmt _ _ _ _ hup, Or.inl rfl⟩
  · have hstored := stored_uploadBmt _ _ _ _ hup
    refine ⟨s', n, rfl, dropped_uploadBmt _ _ _ _ hup, Or.inr ⟨?_, ?_⟩⟩
    · exact Nat.le_of_lt_succ hstored.lt
    · intro k hk hk'
      exact hstored.free k hk (by omega)

end Store

/-! ### The invariant -/

section Invariant

variable {pba : Nat} {t t' : Table}

def Table.mapping (inRange : Nat → Bool) (t : Table) (l : Nat) : Nat :=
  if inRange l then t.words l else l

variable {s : State Page}

theorem getMappingBlockIndexV2_of_lt {l : Nat} (hl : l < c.poolLba) :
    s.getMappingBlockIndexV2 c inRange l = s.table.mapping inRange l :=
  if_neg (by omega)

/-- Unlike `Valid` this does not need the table to be in its slot: a slot without a block is
    never taken again, whatever the index is. -/
structure Sound (c : Chip) (inRange : Nat → Bool) (pba : Nat) (t : Table) : Prop where
  pos : 0 < pba
  poolLba_le : c.poolLba ≤ pba
  le_block : ∀ k, t.block c k ≠ 0 → pba ≤ t.block c k
  slot_lt : ∀ k, t.block c k ≠ 0 → k < 0xffff
  block_inj : ∀ j k, t.block c j ≠ 0 → t.block c j = t.block c k → j = k
  taken_block : ∀ k, t.mapped c k = normalMapped → t.block c k ≠ 0
  taken_lt : ∀ k, t.mapped c k = normalMapped → k < t.bmtBlkIdx
  used : ∀ l < c.poolLba, t.mapping inRange l < pba ∨
    ∃ k, t.mapped c k = normalMapped ∧ t.mapping inRange l = t.block c k
  injective : ∀ i < c.poolLba, ∀ j < c.poolLba,
    t.mapping inRange i = t.mapping inRange j → i = j

variable {block k : Nat}

theorem Sound.mapping_ne (h : Sound c inRange pba t) (hblock : t.block c k ≠ 0)
    (hfree : t.mapped c k ≠ normalMapped) : ∀ l < c.poolLba, t.mapping inRange l ≠ t.block c k := by
  intro l hl heq
  rcases h.used l hl with hlt | ⟨k', hmapped, heq'⟩
  · exact Nat.not_lt.mpr (h.le_block k hblock) (heq ▸ hlt)
  · have hkk' : k = k' := h.block_inj k k' hblock (heq.symm.trans heq')
    exact hfree (hkk' ▸ hmapped)

/-- Tables with the same mapping, where slots that are not taken lost their block or slots
    that no logical block uses are free again. -/
theorem Sound.of_fewer (h : Sound c inRange pba t)
    (hmapping : ∀ l < c.poolLba, t'.mapping inRange l = t.mapping inRange l)
    (hblock : ∀ k, t'.block c k = t.block c k ∨
      t'.block c k = 0 ∧ t'.mapped c k ≠ normalMapped)
    (htaken : ∀ k, t'.mapped c k = normalMapped → t.mapped c k = normalMapped)
    (hkept : ∀ l < c.poolLba, ∀ k, t.mapped c k = normalMapped →
      t.mapping inRange l = t.block c k → t'.mapped c k = normalMapped)
    (hidx : ∀ k, t'.mapped c k = normalMapped → k < t'.bmtBlkIdx) :
    Sound c inRange pba t' := by
  have hsame : ∀ k, t'.block c k ≠ 0 → t'.block c k = t.block c k := by
    intro k hne
    exact (hblock k).resolve_right fun hz => hne hz.1
  have hsame' : ∀ k, t'.mapped c k = normalMapped → t'.block c k = t.block c k := by
    intro k hmapped
    exact (hblock k).resolve_right fun hz => hz.2 hmapped
  refine ⟨h.pos, h.poolLba_le, ?_, ?_, ?_, ?_, hidx, ?_, ?_⟩
  · intro k hne
    have heq := hsame k hne
    rw [heq] at hne ⊢
    exact h.le_block k hne
  · intro k hne
    exact h.slot_lt k (hsame k hne ▸ hne)
  · intro j k hne heq
    have hj := hsame j hne
    have hk := hsame k (heq ▸ hne)
    exact h.block_inj j k (hj ▸ hne) (hj.symm.trans (heq.trans hk))
  · intro k hmapped
    rw [hsame' k hmapped]
    exact h.taken_block k (htaken k hmapped)
  · intro l hl
    rw [hmapping l hl]
    refine (h.used l hl).imp_right ?_
    rintro ⟨k, hmapped, heq⟩
    have hmapped' := hkept l hl k hmapped heq
    exact ⟨k, hmapped', heq.trans (hsame' k hmapped').symm⟩
  · intro i hi j hj
    rw [hmapping i hi, hmapping j hj]
    exact h.injective i hi j hj

theorem mapping_congr {l : Nat} (h : t'.words l = t.words l) :
    t'.mapping inRange l = t.mapping inRange l := by
  unfold Table.mapping
  rw [h]

theorem Sound.upload (h : Sound c inRange pba s.table) (hsep : c.poolLba ≤ c.tableSize) :
    Sound c inRange pba (s.upload blank encode c).table := by
  obtain ⟨s', n, heq, hdrop, hn⟩ := upload_cases blank encode c s
  have hmapped : ∀ k, Table.mapped c { s'.table with bmtBlkIdx := n } k = s.table.mapped c k :=
    hdrop.mapped
  rw [heq]
  refine h.of_fewer ?_ ?_ ?_ ?_ ?_
  · intro l hl
    exact mapping_congr (hdrop.words l (by omega))
  · intro k
    refine (hdrop.block k).imp_right ?_
    rintro ⟨hzero, hfree⟩
    exact ⟨hzero, (hmapped k).trans_ne hfree⟩
  · intro k hk
    exact (hmapped k).symm.trans hk
  · intro _ _ k hk _
    exact (hmapped k).trans hk
  · intro k hk
    have hk' : s.table.mapped c k = normalMapped := (hmapped k).symm.trans hk
    rcases hn with hn | ⟨_, hfree⟩
    · rw [hn]
      exact h.slot_lt k (h.taken_block k hk')
    · refine Nat.lt_of_not_le fun hle => ?_
      exact hfree k hle (Nat.le_of_lt (h.taken_lt k hk')) hk'

/-- Tables with the same slots, perhaps more of them taken, where one logical block has moved
    to a place that no other one is in. -/
theorem Sound.of_moved (h : Sound c inRange pba t) (block : Nat)
    (hblock : ∀ k, t'.block c k = t.block c k)
    (hstill : ∀ k, t.mapped c k = normalMapped → t'.mapped c k = normalMapped)
    (htaken : ∀ k, t'.mapped c k = normalMapped → t.block c k ≠ 0 ∧ k < t'.bmtBlkIdx)
    (hmoved : ∀ l < c.poolLba, t'.mapping inRange l = t.mapping inRange l ∨
      l = block ∧ (∀ i < c.poolLba, i ≠ l → t.mapping inRange i ≠ t'.mapping inRange l) ∧
        (t'.mapping inRange l < pba ∨
          ∃ k, t'.mapped c k = normalMapped ∧ t'.mapping inRange l = t.block c k)) :
    Sound c inRange pba t' := by
  refine ⟨h.pos, h.poolLba_le, ?_, ?_, ?_, ?_, fun k hk => (htaken k hk).2, ?_, ?_⟩
  · intro k
    rw [hblock]
    exact h.le_block k
  · intro k
    rw [hblock]
    exact h.slot_lt k
  · intro j k
    rw [hblock, hblock]
    exact h.block_inj j k
  · intro k hk
    rw [hblock]
    exact (htaken k hk).1
  · intro l hl
    simp only [hblock]
    rcases hmoved l hl with heq | ⟨-, -, hused⟩
    · rw [heq]
      refine (h.used l hl).imp_right ?_
      rintro ⟨k, hk, hkl⟩
      exact ⟨k, hstill k hk, hkl⟩
    · exact hused
  · intro i hi j hj heq
    by_contra hne
    rcases hmoved i hi with hi' | ⟨hib, hnew, -⟩
    · rcases hmoved j hj with hj' | ⟨-, hnew, -⟩
      · exact hne (h.injective i hi j hj (hi'.symm.trans (heq.trans hj')))
      · exact hnew i hi hne (hi'.symm.trans heq)
    · rcases hmoved j hj with hj' | ⟨hjb, -, -⟩
      · exact hnew j hj (Ne.symm hne) (hj'.symm.trans heq.symm)
      · exact hne (hib.trans hjb.symm)

/-! #### Taking a slot -/

theorem mapping_take_self (hrange : inRange block = true) :
    (t.take c k block).mapping inRange block = t.block c k :=
  (if_pos hrange).trans words_take_self

theorem mapping_take_of_ne {l : Nat} (hl : l < c.tableSize) (hne : l ≠ block ∨ inRange l = false) :
    (t.take c k block).mapping inRange l = t.mapping inRange l := by
  rcases hne with hne | hout
  · exact mapping_congr (words_take_of_ne hl hne)
  · unfold Table.mapping
    rw [hout]
    rfl

theorem Sound.take (h : Sound c inRange pba t) (hsep : c.poolLba ≤ c.tableSize)
    (hblock : block < c.tableSize) (hlt : k < t.bmtBlkIdx) (hfree : t.mapped c k = noMapped)
    (hne : t.block c k ≠ 0) : Sound c inRange pba (t.take c k block) := by
  have hnot : t.mapped c k ≠ normalMapped := by
    rw [hfree]
    decide
  refine h.of_moved block (block_take hblock) ?_ ?_ ?_
  · intro i hi
    have hik : i ≠ k := by
      rintro rfl
      exact hnot hi
    exact (mapped_take_of_ne hblock hik).trans hi
  · intro i hi
    by_cases hik : i = k
    · exact ⟨hik ▸ hne, hik ▸ hlt⟩
    · have hi' := (mapped_take_of_ne hblock hik).symm.trans hi
      exact ⟨h.taken_block i hi', h.taken_lt i hi'⟩
  · intro l hl
    by_cases hlb : l = block ∧ inRange l = true
    · obtain ⟨rfl, hrange⟩ := hlb
      rw [mapping_take_self hrange]
      exact .inr ⟨rfl, fun i hi _ => h.mapping_ne hne hnot i hi,
        .inr ⟨k, mapped_take_self hblock, rfl⟩⟩
    · refine .inl (mapping_take_of_ne (by omega) ?_)
      rw [not_and_or, Bool.not_eq_true] at hlb
      exact hlb

theorem Sound.remap (h : Sound c inRange pba s.table) (hsep : c.poolLba ≤ c.tableSize)
    (hblock : block < c.tableSize) (mappedBlock copyLen : Nat) :
    Sound c inRange pba (s.remapBlockV2 blank encode c block mappedBlock copyLen).1.table := by
  rcases remapBlockV2_cases blank encode c s block mappedBlock copyLen with
    heq | ⟨k, s₁, htaken, hne, heq⟩
  · rw [heq]
    exact h
  · rw [heq]
    apply Sound.upload _ hsep
    rw [htaken.table]
    exact h.take hsep hblock htaken.lt htaken.free hne

/-! #### Giving a block back its own number -/

theorem Sound.setWord (h : Sound c inRange pba s.table) (hblock : block < c.tableSize)
    (hvacant : block < c.poolLba → inRange block = true →
      ∀ l < c.poolLba, l ≠ block → s.table.mapping inRange l ≠ block) :
    Sound c inRange pba (s.setWord block block).table := by
  have hmapped : ∀ k, (s.setWord block block).table.mapped c k = s.table.mapped c k := fun k =>
    update_of_ne (ne_mappedAt_of_lt hblock k).symm _ _
  refine h.of_moved block ?_ ?_ ?_ ?_
  · intro k
    exact update_of_ne (ne_blockAt_of_lt hblock k).symm _ _
  · intro k hk
    exact (hmapped k).trans hk
  · intro k hk
    have hk' := (hmapped k).symm.trans hk
    exact ⟨h.taken_block k hk', h.taken_lt k hk'⟩
  · intro l hl
    by_cases hlb : l = block
    · subst hlb
      cases hrange : inRange l with
      | false =>
        unfold Table.mapping
        rw [hrange]
        exact .inl rfl
      | true =>
        have hself : (s.setWord l l).table.mapping inRange l = l :=
          (if_pos hrange).trans (update_self _ _ _)
        rw [hself]
        exact .inr ⟨rfl, hvacant hl hrange, .inl (Nat.lt_of_lt_of_le hl h.poolLba_le)⟩
    · exact .inl (mapping_congr (update_of_ne hlb _ _))

variable (blank encode) in
theorem mtkBmtDebugRepair_table (s : State Page) (block : Nat) :
    (s.mtkBmtDebugRepair blank encode c inRange block).table =
      (s.unmapBlockV2 blank encode c (block % 0x10000)).table := by
  unfold State.mtkBmtDebugRepair
  dsimp only
  split
  · rfl
  · exact (State.touched_bbtNandCopy _ _ _ _ _ _ (by omega)).table.trans
      (State.touched_operate rfl).table

/-! #### Freeing slots -/

theorem freeUnused_of_ne (used : List Nat) {i : Nat} (hi : ∀ k, i ≠ c.mappedAt k) :
    ∀ slots w n, (freeUnused c used slots (w, n)).1 i = w i := by
  intro slots
  induction slots with
  | nil => exact fun _ _ => rfl
  | cons k slots ih =>
    intro w n
    rw [freeUnused]
    split
    · rw [ih, update_of_ne (hi k)]
    · exact ih w n

theorem freeUnused_mapped (used : List Nat) (k : Nat) : ∀ slots w n,
    (freeUnused c used slots (w, n)).1 (c.mappedAt k) = w (c.mappedAt k) ∨
      k ∉ used ∧ (freeUnused c used slots (w, n)).1 (c.mappedAt k) = noMapped := by
  intro slots
  induction slots with
  | nil => exact fun _ _ => .inl rfl
  | cons i slots ih =>
    intro w n
    rw [freeUnused]
    split
    next htaken =>
      by_cases hki : k = i
      · subst hki
        refine .inr ⟨htaken.2, ?_⟩
        rcases ih (update w (c.mappedAt k) noMapped) (n + 1) with heq | ⟨_, heq⟩
        · rw [heq, update_self]
        · exact heq
      · have h := ih (update w (c.mappedAt i) noMapped) (n + 1)
        rwa [update_of_ne (mappedAt_ne hki)] at h
    · exact ih w n

theorem Sound.mem_getMappingMask (h : Sound c inRange pba t) {l : Nat} (hpos : 0 < l)
    (hmain : l < c.mainBlocks) (hl : l < c.poolLba) (hmapped : t.mapped c k = normalMapped)
    (heq : t.mapping inRange l = t.block c k) : k ∈ getMappingMask c t := by
  have hne := h.taken_block k hmapped
  have hle := h.le_block k hne
  have hlpba := Nat.lt_of_lt_of_le hl h.poolLba_le
  -- A block of the pool is behind every logical block, so the block is in the range and moved.
  have hwords : t.words l = t.block c k ∧ t.words l ≠ l := by
    unfold Table.mapping at heq
    split at heq
    · exact ⟨heq, by omega⟩
    · omega
  have hfind : (range t.bmtBlkIdx).find? fun k => t.words l = t.block c k = some k := by
    rcases hres : (range t.bmtBlkIdx).find? fun k => t.words l = t.block c k with _ | k'
    · have hnone := find?_eq_none.mp hres k (mem_range.mpr (h.taken_lt k hmapped))
      rw [decide_eq_true_eq] at hnone
      exact absurd hwords.1 hnone
    · have heq' := find?_some hres
      rw [decide_eq_true_eq] at heq'
      rw [h.block_inj k k' hne (hwords.1.symm.trans heq')]
  refine mem_filterMap.mpr ⟨l, mem_range'_1.mpr ⟨hpos, by omega⟩, ?_⟩
  rw [if_neg hwords.2]
  exact hfind

/-- The logical blocks that the search leaves out are not in the pool. -/
def Unpooled (c : Chip) (inRange : Nat → Bool) (t : Table) : Prop :=
  ∀ l < c.poolLba, l = 0 ∨ c.mainBlocks ≤ l →
    ∀ k < t.bmtBlkIdx, t.mapped c k = normalMapped → t.mapping inRange l ≠ t.block c k

theorem Sound.release (h : Sound c inRange pba t) (hsep : c.poolLba ≤ c.tableSize)
    (hout : Unpooled c inRange t) (slots : List Nat) (n : Nat) :
    Sound c inRange pba
      { t with words := (freeUnused c (getMappingMask c t) slots (t.words, n)).1 } := by
  have hmapped : ∀ k, _ := fun k => freeUnused_mapped (c := c) (getMappingMask c t) k slots
    t.words n
  have htaken : ∀ k,
      (freeUnused c (getMappingMask c t) slots (t.words, n)).1 (c.mappedAt k) = normalMapped →
        t.mapped c k = normalMapped := by
    intro k hk
    rcases hmapped k with heq | ⟨_, heq⟩
    · exact heq.symm.trans hk
    · exact absurd (heq.symm.trans hk) (by decide)
  refine h.of_fewer ?_ ?_ htaken ?_ ?_
  · intro l hl
    refine mapping_congr (freeUnused_of_ne _ (fun k => ?_) _ _ _)
    exact ne_mappedAt_of_lt (by omega) k
  · intro k
    exact .inl (freeUnused_of_ne _ (fun i => (mappedAt_ne_blockAt i k).symm) _ _ _)
  · intro l hl k hk heq
    by_cases hleft : l = 0 ∨ c.mainBlocks ≤ l
    · exact absurd heq (hout l hl hleft k (h.taken_lt k hk) hk)
    · rw [not_or, Nat.not_le] at hleft
      have hmem := h.mem_getMappingMask (by omega) hleft.2 hl hk heq
      exact ((hmapped k).resolve_right fun hnot => hnot.1 hmem).trans hk
  · intro k hk
    exact h.taken_lt k (htaken k hk)

theorem Sound.debug (h : Sound c inRange pba s.table) (hsep : c.poolLba ≤ c.tableSize) {val : Nat}
    (hout : val = 100 → Unpooled c inRange s.table) :
    Sound c inRange pba (s.mtkBmtDebugV2 blank encode c val).table := by
  unfold State.mtkBmtDebugV2
  dsimp only
  split
  next hval =>
    have hfree := h.release hsep (hout hval) (range (s.table.bmtBlkIdx + 1)) 0
    split
    · exact h
    next w n heq =>
      rw [heq] at hfree
      exact Sound.upload hfree hsep
  · exact h

end Invariant

/-! ### Runs -/

/-- A write to `bb_tbl` stays inside it.  A block is given its own number only if no other
    logical block is there, and slots are freed only if none of the logical blocks that the
    search leaves out is in the pool. -/
def Harmless (c : Chip) (inRange : Nat → Bool) (s : State Page) : Repair → Prop
  | .store => True
  | .remap block _ _ => block < c.tableSize
  | .unmap block => Vacant block
  | .repair block => Vacant (block % 0x10000)
  | .debug val => val = 100 → Unpooled c inRange s.table
where
  Vacant (block : Nat) : Prop :=
    block < c.tableSize ∧ (block < c.poolLba → inRange block = true →
      ∀ l < c.poolLba, l ≠ block → s.table.mapping inRange l ≠ block)

instance (s : State Page) (a : Repair) : Decidable (Harmless c inRange s a) := by
  cases a <;> unfold Harmless
  · infer_instance
  · infer_instance
  · unfold Harmless.Vacant
    infer_instance
  · unfold Harmless.Vacant
    infer_instance
  · unfold Unpooled
    infer_instance

theorem Sound.change {s : State Page} {pba : Nat} (h : Sound c inRange pba s.table)
    (hsep : c.poolLba ≤ c.tableSize) {a : Repair} (hok : Harmless c inRange s a) :
    Sound c inRange pba (s.change blank encode c inRange a).table := by
  cases a with
  | store => exact h.upload hsep
  | remap block mappedBlock copyLen => exact h.remap hsep hok mappedBlock copyLen
  | unmap block => exact (h.setWord hok.1 hok.2).upload hsep
  | repair block =>
    show Sound c inRange pba (s.mtkBmtDebugRepair blank encode c inRange block).table
    rw [mtkBmtDebugRepair_table]
    exact (h.setWord hok.1 hok.2).upload hsep
  | debug val => exact h.debug hsep hok

/-! ### The start -/

section Start

theorem scanArea_of_ne {j : Nat} : ∀ n i (w w' : Words), (∀ k, i ≤ k → k < i + n → j ≠ k) →
    scanArea c n i w = some w' → w' j = w j := by
  intro n
  induction n with
  | zero =>
    intro i w w' _ h
    cases h
    rfl
  | succ n ih =>
    intro i w w' hne h
    rw [scanArea] at h
    split at h
    · cases h
    · rw [ih (i + 1) _ _ (fun k hk hk' => hne k (by omega) (by omega)) h]
      exact update_of_ne (hne i (Nat.le_refl i) (by omega)) _ _

theorem scanPool_behind {k : Nat} : ∀ fuel i block (w : Words),
    (scanPool c fuel i block w).2 ≤ k →
      (scanPool c fuel i block w).1 (c.blockAt k) = w (c.blockAt k) ∧
        (scanPool c fuel i block w).1 (c.mappedAt k) = w (c.mappedAt k) := by
  intro fuel
  induction fuel with
  | zero => exact fun _ _ _ _ => ⟨rfl, rfl⟩
  | succ fuel ih =>
    intro i block w
    rw [scanPool]
    split
    · exact fun _ => ⟨rfl, rfl⟩
    · intro hk
      have hik : k ≠ i := Nat.ne_of_gt (Nat.lt_of_lt_of_le (le_scanPool _ _ _ _) hk)
      obtain ⟨hblock, hmapped⟩ := ih _ _ _ hk
      rw [hblock, hmapped, update_of_ne (mappedAt_ne_blockAt i k).symm,
        update_of_ne (blockAt_ne hik), update_of_ne (mappedAt_ne hik),
        update_of_ne (mappedAt_ne_blockAt k i)]
      exact ⟨rfl, rfl⟩

theorem scanBadBlocks_behind (hsep : c.poolLba ≤ c.tableSize) {buf : Words} {t : Table}
    (h : scanBadBlocks c (clearBmtTbl c buf) = some t) :
    ∀ k, t.bmtBlkIdx < k → t.block c k = 0 ∧ t.mapped c k = noMapped := by
  obtain ⟨w, w', n, harea, -, hscan, rfl⟩ := exists_scanPool h
  have hclear : ∀ j, c.tableSize ≤ j → w j = 0 := by
    intro j hj
    rw [scanArea_of_ne _ _ _ _ (by omega) harea]
    by_cases hzero : j = 0
    · rw [hzero, update_self]
    · rw [update_of_ne hzero]
      exact if_pos hj
  intro k hk
  have hbehind := scanPool_behind (c := c) (k := k) c.totalBlks 0 (w (c.poolLba - 1) + 1) w
  rw [hscan] at hbehind
  obtain ⟨hblock, hmapped⟩ := hbehind hk
  constructor
  · refine (update_of_ne (mappedAt_ne_blockAt n k).symm _ _).trans ?_
    exact hblock.trans (hclear _ (Nat.le_add_right _ _))
  · refine (update_of_ne (mappedAt_ne (Nat.ne_of_gt hk)) _ _).trans ?_
    exact hmapped.trans (hclear _ (Nat.le_add_right_of_le (Nat.le_add_right _ _)))

/-- The scan has not moved a block of the range onto one outside of it. -/
def Confined (c : Chip) (inRange : Nat → Bool) (t : Table) : Prop :=
  ∀ i < c.poolLba, ∀ j < c.poolLba, inRange i = true → inRange j = false → t.words i ≠ j

theorem Scanned.sound {pba : Nat} {t : Table} (h : Scanned c pba t) (hsep : c.poolLba ≤ c.tableSize)
    (hbehind : ∀ k, t.bmtBlkIdx < k → t.block c k = 0 ∧ t.mapped c k = noMapped)
    (hconf : Confined c inRange t) : Sound c inRange pba t := by
  obtain ⟨hinc, hlt⟩ := h.area hsep
  have hle : ∀ k, t.block c k ≠ 0 → k ≤ t.bmtBlkIdx := by
    intro k hne
    exact Nat.le_of_not_lt fun hk => hne (hbehind k hk).1
  have hfree : ∀ k, t.mapped c k ≠ normalMapped := by
    intro k
    rcases Nat.lt_trichotomy k t.bmtBlkIdx with hk | hk | hk
    · rw [h.free k hk]
      decide
    · rw [hk, h.table]
      decide
    · rw [(hbehind k hk).2]
      decide
  refine ⟨h.pos, h.poolLba_le, ?_, ?_, ?_, ?_, ?_, ?_, ?_⟩
  · intro k hne
    exact h.le_block k (hle k hne)
  · intro k hne
    exact Nat.lt_of_le_of_lt (hle k hne) h.idx_lt
  · intro j k hne heq
    exact StrictMonoOn.injOn (fun j _ k hk hjk => h.block_lt j k hjk hk) (hle j hne)
      (hle k (heq ▸ hne)) heq
  · intro k hk
    exact absurd hk (hfree k)
  · intro k hk
    exact absurd hk (hfree k)
  · intro l hl
    refine .inl ?_
    unfold Table.mapping
    split
    · exact hlt l hl
    · exact Nat.lt_of_lt_of_le hl h.poolLba_le
  · intro i hi j hj heq
    unfold Table.mapping at heq
    cases hri : inRange i <;> cases hrj : inRange j <;> rw [hri, hrj] at heq
    · exact heq
    · exact absurd heq.symm (hconf j hj i hi hrj hri)
    · exact absurd heq (hconf i hi j hj hri hrj)
    · exact StrictMonoOn.injOn (fun i _ j hj hij => hinc i j hij hj) hi hj heq

end Start

section Run

variable {buf : Words} {t : Table} {flash : Nat → Page} {results : List (Option (Nat → Page))}
  {s : State Page}

theorem exists_sound_of_harmless (hsep : c.poolLba ≤ c.tableSize)
    (hscan : scanBadBlocks c (clearBmtTbl c buf) = some t) (hconf : Confined c inRange t)
    (hrun : Steps (fun s a => some (s.change blank encode c inRange a)) (Harmless c inRange)
      ⟨t, flash, results⟩ s) :
    ∃ pba, Sound c inRange pba s.table := by
  obtain ⟨pba, h⟩ := exists_scanned hscan
  refine ⟨pba, @Steps.invariant _ _ _ _ _ _ (fun s => Sound c inRange pba s.table) hrun
    (h.sound hsep (scanBadBlocks_behind hsep hscan) hconf) ?_⟩
  rintro s a _ hs hok ⟨⟩
  exact hs.change hsep hok

end Run

/-- The operations on `smallChip` with every block in the range. -/
def smallChange : State Nat → Repair → State Nat :=
  State.change 0xff (fun w i => w i) smallChip fun _ => true

def smallMapping (s : State Nat) : Nat → Nat :=
  s.getMappingBlockIndexV2 smallChip fun _ => true

end Rooter.Bmt
