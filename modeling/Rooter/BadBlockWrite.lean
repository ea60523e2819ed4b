import Rooter.BadBlockRepair

/-!
# Writing through the mapping

When a block cannot be programmed, `mtk_bmt_write` has it remapped, with the pages in front
of the write copied to the new block, and tries again.  `remap_block_v2` does not look at the
result of that copy.  A page that cannot be read or programmed ends the copy, the pages behind
it are lost, and the write is then reported as a success.

So some pattern of failures loses data as soon as there are pages in front of the write and a
slot to move them to.  None is lost if each failure is followed by as many successes as the
copy takes operations.
-/

namespace Rooter.Bmt

open List

open Execution (Steps)

variable {Page : Type}

/-! ### The write -/

namespace State

variable (blank : Page) (encode : Words → Nat → Page) (c : Chip) (inRange : Nat → Bool)

def mtkBmtRemapBlock (s : State Page) (block mappedBlock copyLen : Nat) : State Page × Bool :=
  if inRange block then s.remapBlockV2 blank encode c block mappedBlock copyLen else (s, false)

/-- `bmtd._write_oob` of whole pages, from page `offset` of a physical block on. -/
def writePages (s : State Page) (block offset : Nat) (data : List Page) : State Page × Bool :=
  s.operate (block * c.pages + offset) data.length fun p =>
    (data[p - (block * c.pages + offset)]?).getD blank

/-- The attempts of `mtk_bmt_write` at one block; the number in front is `10 - retry_count`. -/
def writeBlock (block offset : Nat) (data : List Page) : Nat → State Page → State Page × Bool
  | left, s =>
      let curBlock := s.getMappingBlockIndexV2 c inRange block
      match s.writePages blank c curBlock offset data with
      | (s, true) => (s, true)
      | (s, false) =>
          match s.mtkBmtRemapBlock blank encode c inRange block curBlock (offset * c.pgSize) with
          | (s, false) => (s, false)
          | (s, true) =>
              match left with
              | 0 => (s, false)
              | left + 1 => writeBlock block offset data left s

/-- The loop of `mtk_bmt_write`, one block after the other; `page` is `to`, counted in pages. -/
def writeLoop : Nat → Nat → List Page → State Page → State Page × Bool
  | _, _, [], s => (s, true)
  | 0, _, _ :: _, s => (s, false)
  | fuel + 1, page, data, s =>
      let offset := page % c.pages
      let chunk := data.take (c.pages - offset)
      match s.writeBlock blank encode c inRange (page / c.pages) offset chunk 10 with
      | (s, false) => (s, false)
      | (s, true) => writeLoop fuel (page + chunk.length) (data.drop chunk.length) s

/-- `mtk_bmt_write`; every turn writes a page at least. -/
def mtkBmtWrite (s : State Page) (page : Nat) (data : List Page) : State Page × Bool :=
  writeLoop blank encode c inRange data.length page data s

/-- The first `n` operations to come succeed. -/
def quiet (results : List (Option (Nat → Page))) (n : Nat) : Bool :=
  (results.take n).all Option.isNone

/-- Each failure is followed by `m` operations that succeed. -/
def Spaced (m : Nat) : List (Option (Nat → Page)) → Prop
  | [] => True
  | r :: rest => (r.isSome = true → quiet rest m = true) ∧ Spaced m rest

end State

variable {blank : Page} {encode : Words → Nat → Page} {c : Chip} {inRange : Nat → Bool}

/-! ### One operation -/

section Operate

variable {s s' : State Page} {results : List (Option (Nat → Page))}

theorem quiet_tail {n : Nat} (h : State.quiet results (n + 1) = true) :
    State.quiet results.tail n = true := by
  cases results with
  | nil => simp [State.quiet]
  | cons r rest =>
    unfold State.quiet at h ⊢
    rw [take_succ_cons, all_cons, Bool.and_eq_true] at h
    exact h.2

theorem quiet_head {left : Nat → Page} {rest : List (Option (Nat → Page))} {n : Nat} :
    State.quiet (some left :: rest) (n + 1) ≠ true := by
  intro h
  unfold State.quiet at h
  rw [take_succ_cons, all_cons, Bool.and_eq_true] at h
  exact absurd h.1 Bool.false_ne_true

theorem results_operate (s : State Page) (first count : Nat) (pages : Nat → Page) :
    (s.operate first count pages).1.results = s.results.tail := by
  unfold State.operate
  split
  next heq => rw [heq]; rfl
  · rfl

theorem State.Spaced.of_suffix {m : Nat} {rest : List (Option (Nat → Page))} :
    ∀ {results}, State.Spaced m results → rest <:+ results → State.Spaced m rest := by
  intro results
  induction results with
  | nil =>
    intro _ hrest
    rw [suffix_nil.mp hrest]
    trivial
  | cons r results ih =>
    intro h hrest
    rcases suffix_cons_iff.mp hrest with rfl | hrest
    · exact h
    · exact ih h.2 hrest

theorem operate_fst_touched (s : State Page) (first count : Nat) (pages : Nat → Page) :
    State.Touched first count s (s.operate first count pages).1 :=
  State.touched_operate rfl

end Operate

/-! ### Copying -/

section Copy

variable {dest src offset : Nat}

theorem bbtNandCopy_copies (hne : dest ≠ src) (hpg : 0 < c.pgSize) (hoff : offset ≤ c.pages) :
    ∀ n i (s : State Page), i + n = c.pages → State.quiet s.results (2 * (offset - i)) = true →
      (∀ j < i, (State.bbtNandCopy c dest src (offset * c.pgSize) n i s).flash
        (dest * c.pages + j) = s.flash (dest * c.pages + j)) ∧
      ∀ j, i ≤ j → j < offset →
        (State.bbtNandCopy c dest src (offset * c.pgSize) n i s).flash (dest * c.pages + j) =
          s.flash (src * c.pages + j) := by
  intro n
  induction n with
  | zero =>
    intro i s hi _
    exact ⟨fun _ _ => rfl, fun j hj hj' => by omega⟩
  | succ n ih =>
    intro i s hi hquiet
    rw [State.bbtNandCopy]
    by_cases hend : offset ≤ i
    · rw [if_pos (Nat.mul_le_mul_right _ hend)]
      exact ⟨fun _ _ => rfl, fun j hj hj' => by omega⟩
    rw [if_neg (Nat.not_le.mpr (Nat.mul_lt_mul_of_pos_right (by omega) hpg))]
    rw [show 2 * (offset - i) = 2 * (offset - (i + 1)) + 1 + 1 by omega] at hquiet
    have hquiet' := quiet_tail hquiet
    split
    next heq => exact absurd (heq ▸ hquiet) quiet_head
    dsimp only
    split
    next s₁ hop =>
      obtain ⟨left, hresults, -⟩ := State.operate_false hop
      rw [show s.results.tail = some left :: s₁.results from hresults] at hquiet'
      exact absurd hquiet' quiet_head
    next s₁ hop =>
      obtain ⟨hpage, -, htail⟩ := State.operate_true hop
      have htouched := State.touched_operate hop
      obtain ⟨hbelow, hfrom⟩ := ih (i + 1) s₁ (by omega) (htail ▸ quiet_tail hquiet')
      constructor
      · intro j hj
        rw [hbelow j (by omega), htouched.flash _ (.inl (by omega))]
      · intro j hij hj
        rcases Nat.eq_or_lt_of_le hij with rfl | hij
        · rw [hbelow i (by omega)]
          exact hpage _ (Nat.le_refl _) (by omega)
        · rw [hfrom j hij hj]
          refine htouched.flash _ ?_
          rcases page_out (Ne.symm hne) (show j < c.pages by omega) with hlt | hlt
          · exact .inl (by omega)
          · exact .inr (by omega)

theorem results_bbtNandCopy (dest src maxOffset : Nat) : ∀ n i (s : State Page),
    (s.bbtNandCopy c dest src maxOffset n i).results <:+ s.results := by
  intro n
  induction n with
  | zero => exact fun _ s => suffix_refl _
  | succ n ih =>
    intro i s
    rw [State.bbtNandCopy]
    split
    · exact suffix_refl _
    split
    next heq => exact heq ▸ suffix_cons _ _
    dsimp only
    rcases hop : State.operate { s with results := s.results.tail } (dest * c.pages + i) 1
      fun _ => s.flash (src * c.pages + i) with ⟨s₁, ok⟩
    have hresults := results_operate { s with results := s.results.tail } (dest * c.pages + i) 1
      fun _ => s.flash (src * c.pages + i)
    rw [hop] at hresults
    have hs₁ : s₁.results <:+ s.results :=
      hresults ▸ (tail_suffix _).trans (tail_suffix _)
    cases ok
    · exact hs₁
    · exact (ih _ _).trans hs₁

theorem results_occupy (s : State Page) (block mappedBlock copyLen newBlock : Nat) :
    (s.occupy blank c block mappedBlock copyLen newBlock).results <:+ s.results := by
  have herase : ((s.setWord block newBlock).bbtNandErase blank c newBlock).1.results <:+
      s.results := by
    unfold State.bbtNandErase
    rw [results_operate]
    exact tail_suffix _
  unfold State.occupy
  dsimp only
  split
  · exact (results_bbtNandCopy _ _ _ _ _ _).trans herase
  · exact herase

theorem occupy_copies {s : State Page} {block : Nat} (hne : dest ≠ src) (hpg : 0 < c.pgSize)
    (hoff : offset ≤ c.pages) (hquiet : State.quiet s.results.tail (2 * offset) = true) :
    ∀ i < offset, (s.occupy blank c block src (offset * c.pgSize) dest).flash
      (dest * c.pages + i) = s.flash (src * c.pages + i) := by
  intro i hi
  have htouched := operate_fst_touched (s.setWord block dest) (dest * c.pages) c.pages
    fun _ => blank
  unfold State.occupy
  rw [if_pos (Nat.mul_pos (by omega) hpg)]
  have hcopy := (bbtNandCopy_copies hne hpg hoff c.pages 0
    ((s.setWord block dest).bbtNandErase blank c dest).1 (by omega) ?_).2 i
    (Nat.zero_le i) hi
  · rw [hcopy]
    exact htouched.flash _ (page_out (Ne.symm hne) (by omega))
  · unfold State.bbtNandErase
    rw [results_operate]
    exact hquiet

end Copy

/-! ### What remapping keeps -/

section Remap

variable {pba block offset : Nat} {s s' : State Page}

theorem flash_uploadBmt (hfit : c.bmtPgs ≤ c.pages) {b : Nat} : ∀ n (s s' : State Page) r,
    s.uploadBmt blank encode c n = (s', r) →
      (∀ k < n, s.table.mapped c k ≠ normalMapped → b ≠ s.table.block c k) →
        ∀ i < c.pages, s'.flash (b * c.pages + i) = s.flash (b * c.pages + i) := by
  refine uploadBmt_induction ?_ ?_ ?_
  · intro _ _ _ _ _
    rfl
  · intro n s s' hmapped hput hb i hi
    refine hput.outside _ ?_
    rw [Nat.max_eq_left hfit]
    exact page_out (hb n n.lt_succ_self hmapped) hi
  · intro n s s₁ s' r hmapped hfailed ih hb i hi
    refine (ih ?_ i hi).trans (hfailed.outside _ ?_)
    · intro k hk hfree
      have hmap : (s₁.setWord (c.blockAt n) 0).table.mapped c k = s.table.mapped c k :=
        (Function.update_of_ne (mappedAt_ne_blockAt k n) _ _).trans
          (by rw [hfailed.table]; rfl)
      have hblock : (s₁.setWord (c.blockAt n) 0).table.block c k = s.table.block c k :=
        (Function.update_of_ne (blockAt_ne (by omega)) _ _).trans
          (by rw [hfailed.table]; rfl)
      rw [hblock]
      exact hb k (by omega) (hmap ▸ hfree)
    · rw [Nat.max_eq_left hfit]
      exact page_out (hb n n.lt_succ_self hmapped) hi

variable (blank encode) in
theorem Sound.flash_upload (h : Sound c inRange pba s.table) (hfit : c.bmtPgs ≤ c.pages)
    {l : Nat} (hl : l < c.poolLba) (hne : s.table.mapping inRange l ≠ 0) :
    ∀ i < c.pages, (s.upload blank encode c).flash (s.table.mapping inRange l * c.pages + i) =
      s.flash (s.table.mapping inRange l * c.pages + i) := by
  intro i hi
  unfold State.upload
  rcases hup : s.uploadBmt blank encode c (s.table.bmtBlkIdx + 1) with ⟨s', r⟩
  show s'.flash _ = s.flash _
  refine flash_uploadBmt hfit _ _ _ _ hup (fun k _ hfree heq => ?_) i hi
  by_cases hzero : s.table.block c k = 0
  · exact hne (heq.trans hzero)
  · exact h.mapping_ne hzero hfree l hl heq

theorem results_upload (s : State Page) : (s.upload blank encode c).results <:+ s.results := by
  unfold State.upload
  rcases hup : s.uploadBmt blank encode c (s.table.bmtBlkIdx + 1) with ⟨s', r⟩
  refine uploadBmt_induction (motive := fun _ s s' _ => s'.results <:+ s.results) ?_ ?_ ?_
    _ s s' r hup
  · exact fun _ _ => suffix_refl _
  · exact fun _ _ _ _ hput => hput.results
  · exact fun _ _ _ _ _ _ hfailed ih => ih.trans hfailed.results

theorem mapping_upload (s : State Page) {l : Nat} (hl : l < c.tableSize) :
    (s.upload blank encode c).table.mapping inRange l = s.table.mapping inRange l := by
  obtain ⟨s', n, heq, hdrop, -⟩ := upload_cases blank encode c s
  rw [heq]
  exact mapping_congr (hdrop.words l hl)

variable (blank encode) in
theorem mtkBmtRemapBlock_of_slot (hrange : inRange block = true) {k : Nat}
    (hslot : s.table.freeSlot c = some k) (mappedBlock copyLen : Nat) :
    s.mtkBmtRemapBlock blank encode c inRange block mappedBlock copyLen =
      (((s.setWord (c.mappedAt k) normalMapped).occupy blank c block mappedBlock copyLen
        (s.table.block c k)).upload blank encode c, true) := by
  unfold State.mtkBmtRemapBlock
  rw [if_pos hrange]
  exact remapBlockV2_of_slot blank encode hslot _ _ _

theorem mtkBmtRemapBlock_true {mappedBlock copyLen : Nat}
    (h : s.mtkBmtRemapBlock blank encode c inRange block mappedBlock copyLen = (s', true)) :
    inRange block = true ∧ ∃ k, s.table.freeSlot c = some k := by
  unfold State.mtkBmtRemapBlock at h
  split at h
  next hrange =>
    rcases hslot : s.table.freeSlot c with _ | k
    · rw [remapBlockV2_of_none blank encode hslot] at h
      cases h
    · exact ⟨hrange, k, rfl⟩
  · cases h

variable (blank) in
/-- The tables before they are stored: the block has moved to a place where no logical block
    has been. -/
theorem Sound.occupy (h : Sound c inRange pba s.table) (hsep : c.poolLba ≤ c.tableSize)
    (hblock : block < c.poolLba) (hrange : inRange block = true) {k : Nat}
    (hslot : s.table.freeSlot c = some k) (mappedBlock copyLen : Nat) :
    Sound c inRange pba ((s.setWord (c.mappedAt k) normalMapped).occupy blank c block mappedBlock
        copyLen (s.table.block c k)).table ∧
      ((s.setWord (c.mappedAt k) normalMapped).occupy blank c block mappedBlock copyLen
        (s.table.block c k)).table.mapping inRange block = s.table.block c k ∧
      ∀ l < c.poolLba, s.table.block c k ≠ s.table.mapping inRange l := by
  obtain ⟨hk, hfree, hne⟩ := freeSlot_spec hslot
  have htaken := taken_occupy blank hk hfree block mappedBlock copyLen
  rw [htaken.table]
  refine ⟨h.take hsep (by omega) hk hfree hne, mapping_take_self hrange,
    fun l hl => (h.mapping_ne hne ?_ l hl).symm⟩
  rw [hfree]
  decide

theorem Sound.remap_copies (h : Sound c inRange pba s.table) (hsep : c.poolLba ≤ c.tableSize)
    (hpg : 0 < c.pgSize) (hfit : c.bmtPgs ≤ c.pages) (hblock : block < c.poolLba)
    (hoff : offset ≤ c.pages) (hquiet : State.quiet s.results.tail (2 * offset) = true)
    (hremap : s.mtkBmtRemapBlock blank encode c inRange block (s.table.mapping inRange block)
      (offset * c.pgSize) = (s', true)) :
    ∀ i < offset, s'.flash (s'.table.mapping inRange block * c.pages + i) =
      s.flash (s.table.mapping inRange block * c.pages + i) := by
  obtain ⟨hrange, k, hslot⟩ := mtkBmtRemapBlock_true hremap
  obtain ⟨hsound, hmapping, hfresh⟩ := h.occupy blank hsep hblock hrange hslot
    (s.table.mapping inRange block) (offset * c.pgSize)
  rw [mtkBmtRemapBlock_of_slot blank encode hrange hslot] at hremap
  cases hremap
  have hne := (freeSlot_spec hslot).2.2
  intro i hi
  rw [mapping_upload _ (by omega),
    hsound.flash_upload blank encode hfit hblock (by rw [hmapping]; exact hne) i (by omega),
    hmapping]
  exact occupy_copies (s := s.setWord (c.mappedAt k) normalMapped) (hfresh block hblock) hpg hoff
    hquiet i hi

end Remap

/-! ### The attempts -/

section Write

variable {pba block offset : Nat} {data : List Page} {s s' s₁ s₂ : State Page} {left : Nat}

variable (blank encode c inRange) in
theorem results_mtkBmtRemapBlock (s : State Page) (block mappedBlock copyLen : Nat) :
    (s.mtkBmtRemapBlock blank encode c inRange block mappedBlock copyLen).1.results <:+
      s.results := by
  unfold State.mtkBmtRemapBlock
  split
  · rcases hslot : s.table.freeSlot c with _ | k
    · simp only [remapBlockV2_of_none blank encode hslot, suffix_refl]
    · rw [remapBlockV2_of_slot blank encode hslot]
      exact (results_upload _).trans (results_occupy _ _ _ _ _)
  · exact suffix_refl _

variable (blank encode) in
theorem Sound.mtkBmtRemapBlock (h : Sound c inRange pba s.table) (hsep : c.poolLba ≤ c.tableSize)
    (hblock : block < c.poolLba) (mappedBlock copyLen : Nat) :
    Sound c inRange pba
      (s.mtkBmtRemapBlock blank encode c inRange block mappedBlock copyLen).1.table := by
  unfold State.mtkBmtRemapBlock
  split
  · exact h.remap hsep (by omega) mappedBlock copyLen
  · exact h

theorem writeBlock_cases
    (h : s.writeBlock blank encode c inRange block offset data left = (s', true)) :
    s.writePages blank c (s.getMappingBlockIndexV2 c inRange block) offset data = (s', true) ∨
      ∃ s₁ s₂ left', s.writePages blank c (s.getMappingBlockIndexV2 c inRange block) offset data =
          (s₁, false) ∧
        s₁.mtkBmtRemapBlock blank encode c inRange block
          (s.getMappingBlockIndexV2 c inRange block) (offset * c.pgSize) = (s₂, true) ∧
        left = left' + 1 ∧
        s₂.writeBlock blank encode c inRange block offset data left' = (s', true) := by
  unfold State.writeBlock at h
  dsimp only at h
  split at h
  next s₁ hwrite =>
    cases h
    exact .inl hwrite
  next s₁ hwrite =>
    split at h
    · cases h
    next s₂ hremap =>
      split at h
      · cases h
      next left' => exact .inr ⟨s₁, s₂, left', hwrite, hremap, rfl, h⟩

theorem writeBlock_retry
    (hwrite : s.writePages blank c (s.getMappingBlockIndexV2 c inRange block) offset data =
      (s₁, false))
    (hremap : s₁.mtkBmtRemapBlock blank encode c inRange block
      (s.getMappingBlockIndexV2 c inRange block) (offset * c.pgSize) = (s₂, true)) (left : Nat) :
    s.writeBlock blank encode c inRange block offset data (left + 1) =
      s₂.writeBlock blank encode c inRange block offset data left := by
  conv => lhs; unfold State.writeBlock
  dsimp only
  rw [hwrite]
  dsimp only
  rw [hremap]

variable (encode left) in
theorem writeBlock_of_true
    (hwrite : s.writePages blank c (s.getMappingBlockIndexV2 c inRange block) offset data =
      (s', true)) : s.writeBlock blank encode c inRange block offset data left = (s', true) := by
  unfold State.writeBlock
  dsimp only
  rw [hwrite]

theorem writePages_true {cur : Nat} (h : s.writePages blank c cur offset data = (s', true)) :
    s'.table = s.table ∧ (∀ i < offset, s'.flash (cur * c.pages + i) =
      s.flash (cur * c.pages + i)) ∧
      ∀ i (hi : i < data.length), s'.flash (cur * c.pages + offset + i) = data[i] := by
  have htouched := State.touched_operate h
  refine ⟨htouched.table, fun i hi => htouched.flash _ (.inl (by omega)), fun i hi => ?_⟩
  rw [(State.operate_true h).1 _ (by omega) (by omega), Nat.add_sub_cancel_left,
    getElem?_eq_getElem hi]
  rfl

/-- The pages that were written are there, whatever became of those in front of them. -/
theorem getMappingBlockIndexV2_congr (h : s'.table = s.table) :
    s'.getMappingBlockIndexV2 c inRange block = s.getMappingBlockIndexV2 c inRange block := by
  unfold State.getMappingBlockIndexV2
  rw [h]

theorem writeBlock_data : ∀ left (s s' : State Page),
    s.writeBlock blank encode c inRange block offset data left = (s', true) →
      ∀ i (hi : i < data.length),
        s'.flash (s'.getMappingBlockIndexV2 c inRange block * c.pages + offset + i) = data[i] := by
  intro left
  induction left using Nat.strongRecOn with
  | ind left ih =>
    intro s s' h
    rcases writeBlock_cases h with hwrite | ⟨s₁, s₂, left', -, -, rfl, hrest⟩
    · obtain ⟨htable, -, hdata⟩ := writePages_true hwrite
      rw [getMappingBlockIndexV2_congr htable]
      exact hdata
    · exact ih left' (by omega) s₂ s' hrest

theorem Sound.writeBlock_keeps (hsep : c.poolLba ≤ c.tableSize) (hpg : 0 < c.pgSize)
    (hfit : c.bmtPgs ≤ c.pages) (hblock : block < c.poolLba) (hoff : offset ≤ c.pages) :
    ∀ left (s s' : State Page), Sound c inRange pba s.table →
      State.Spaced (2 * offset + 1) s.results →
      s.writeBlock blank encode c inRange block offset data left = (s', true) →
        ∀ i < offset, s'.flash (s'.getMappingBlockIndexV2 c inRange block * c.pages + i) =
          s.flash (s.getMappingBlockIndexV2 c inRange block * c.pages + i) := by
  intro left
  induction left using Nat.strongRecOn with
  | ind left ih =>
    intro s s' hs hspaced h
    rcases writeBlock_cases h with hwrite | ⟨s₁, s₂, left', hwrite, hremap, rfl, hrest⟩
    · obtain ⟨htable, hbelow, -⟩ := writePages_true hwrite
      rw [getMappingBlockIndexV2_congr htable]
      exact hbelow
    · -- the erasure and the copy come right behind the failure
      obtain ⟨lost, hresults, -⟩ := State.operate_false hwrite
      rw [hresults] at hspaced
      have hquiet := quiet_tail (hspaced.1 rfl)
      have htouched := State.touched_operate hwrite
      have hmap : s.getMappingBlockIndexV2 c inRange block = s₁.table.mapping inRange block := by
        rw [getMappingBlockIndexV2_of_lt hblock, htouched.table]
      have hs₁ : Sound c inRange pba s₁.table := htouched.table ▸ hs
      have hs₂ := hs₁.mtkBmtRemapBlock blank encode hsep hblock
        (s.getMappingBlockIndexV2 c inRange block) (offset * c.pgSize)
      have hsuffix : s₂.results <:+ s₁.results := by
        have hsuffix := results_mtkBmtRemapBlock blank encode c inRange s₁ block
          (s.getMappingBlockIndexV2 c inRange block) (offset * c.pgSize)
        rwa [hremap] at hsuffix
      rw [hremap] at hs₂
      have hbelow := ih left' (by omega) s₂ s' hs₂ (hspaced.2.of_suffix hsuffix) hrest
      intro i hi
      rw [hmap] at hremap
      rw [hbelow i hi, getMappingBlockIndexV2_of_lt hblock,
        hs₁.remap_copies hsep hpg hfit hblock hoff hquiet hremap i hi, ← hmap]
      exact htouched.flash _ (.inl (by omega))

end Write

/-! ### The write as a whole -/

/-- If the write returns without an error, then through the new mapping the logical block
    has its old pages in front of the write, and the pages that were written. -/
def Keeps (blank : Page) (encode : Words → Nat → Page) (c : Chip) (inRange : Nat → Bool)
    (block offset : Nat) (data : List Page) (s : State Page) : Prop :=
  ∀ s', s.mtkBmtWrite blank encode c inRange (block * c.pages + offset) data = (s', true) →
    (∀ i < offset, s'.flash (s'.getMappingBlockIndexV2 c inRange block * c.pages + i) =
      s.flash (s.getMappingBlockIndexV2 c inRange block * c.pages + i)) ∧
    ∀ i (hi : i < data.length),
      s'.flash (s'.getMappingBlockIndexV2 c inRange block * c.pages + offset + i) = data[i]

section Whole

variable {block offset : Nat} {data : List Page}

theorem mtkBmtWrite_eq (hdata : data ≠ []) (hlen : offset + data.length ≤ c.pages)
    (s : State Page) :
    s.mtkBmtWrite blank encode c inRange (block * c.pages + offset) data =
      s.writeBlock blank encode c inRange block offset data 10 := by
  have hpos : 0 < data.length := length_pos_iff.mpr hdata
  have hlt : offset < c.pages := by omega
  obtain ⟨page, rest, rfl⟩ := exists_cons_of_ne_nil hdata
  have hblock : (block * c.pages + offset) / c.pages = block := by
    rw [Nat.add_comm, Nat.add_mul_div_right _ _ (by omega), Nat.div_eq_of_lt hlt, Nat.zero_add]
  have hoffset : (block * c.pages + offset) % c.pages = offset := by
    rw [Nat.add_comm, Nat.add_mul_mod_self_right, Nat.mod_eq_of_lt hlt]
  have hchunk : (page :: rest).take (c.pages - offset) = page :: rest :=
    take_of_length_le (by omega)
  unfold State.mtkBmtWrite
  rw [length_cons, State.writeLoop]
  simp only [hblock, hoffset, hchunk]
  rcases s.writeBlock blank encode c inRange block offset (page :: rest) 10 with ⟨s', _ | _⟩
  · rfl
  · rw [drop_length]
    unfold State.writeLoop
    rfl
  · exact hdata

theorem keeps_of_below (hlen : offset + data.length ≤ c.pages) {s : State Page}
    (hbelow : data ≠ [] → ∀ s',
      s.writeBlock blank encode c inRange block offset data 10 = (s', true) →
        ∀ i < offset, s'.flash (s'.getMappingBlockIndexV2 c inRange block * c.pages + i) =
          s.flash (s.getMappingBlockIndexV2 c inRange block * c.pages + i)) :
    Keeps blank encode c inRange block offset data s := by
  intro s' hwrites
  by_cases hdata : data = []
  · subst hdata
    cases hwrites
    exact ⟨fun _ _ => rfl, fun i hi => absurd hi (Nat.not_lt_zero i)⟩
  · rw [mtkBmtWrite_eq hdata hlen] at hwrites
    exact ⟨hbelow hdata s' hwrites, writeBlock_data 10 s s' hwrites⟩

theorem freeSlot_eq_none {t : Table} : t.freeSlot c = none ↔
    ∀ k < t.bmtBlkIdx, t.block c k = 0 ∨ t.mapped c k ≠ noMapped := by
  unfold Table.freeSlot
  rw [find?_eq_none]
  refine forall_congr' fun k => ?_
  simp only [mem_range, decide_eq_true_eq, not_and_or, ne_eq, not_not]

variable (blank block) in
theorem occupy_lost {s : State Page} {y : Page} {copyLen : Nat}
    (hresults : s.results = [some fun _ => y, some fun _ => y]) (hcopy : 0 < copyLen)
    (hpages : 0 < c.pages) (src dest : Nat) :
    (s.occupy blank c block src copyLen dest).results = [] ∧
      (s.occupy blank c block src copyLen dest).flash (dest * c.pages) = y := by
  obtain ⟨n, hn⟩ := Nat.exists_eq_add_one_of_ne_zero (Nat.ne_of_gt hpages)
  unfold State.occupy State.bbtNandErase State.operate State.setWord
  rw [if_pos hcopy, hn, State.bbtNandCopy]
  simp [hresults, Nat.ne_of_gt hcopy]

/-- The pages in front of the write when the block cannot be programmed, the new one cannot be
    erased and the first page cannot be read: the new block keeps what the failure leaves. -/
theorem exists_lost (blank : Page) (encode : Words → Nat → Page) (data : List Page) {pba : Nat}
    {s : State Page} {y : Page} (hs : Sound c inRange pba s.table)
    (hsep : c.poolLba ≤ c.tableSize) (hpg : 0 < c.pgSize) (hfit : c.bmtPgs ≤ c.pages)
    (hblock : block < c.poolLba) (hlen : offset + data.length ≤ c.pages) (hpos : 0 < offset)
    (hrange : inRange block = true) {k : Nat} (hslot : s.table.freeSlot c = some k)
    (hresults : s.results = [some fun _ => y, some fun _ => y, some fun _ => y]) :
    ∃ s', s.writeBlock blank encode c inRange block offset data 10 = (s', true) ∧
      s'.flash (s'.getMappingBlockIndexV2 c inRange block * c.pages) = y := by
  obtain ⟨s₁, hwrite, htable, hresults₁⟩ : ∃ s₁, s.writePages blank c
      (s.getMappingBlockIndexV2 c inRange block) offset data = (s₁, false) ∧
      s₁.table = s.table ∧ s₁.results = [some fun _ => y, some fun _ => y] := by
    unfold State.writePages State.operate
    rw [hresults]
    exact ⟨_, rfl, rfl, rfl⟩
  rw [← htable] at hs hslot
  have hremap := mtkBmtRemapBlock_of_slot blank encode hrange hslot
    (s.getMappingBlockIndexV2 c inRange block) (offset * c.pgSize)
  obtain ⟨hsound, hmapping, -⟩ := hs.occupy blank hsep hblock hrange hslot
    (s.getMappingBlockIndexV2 c inRange block) (offset * c.pgSize)
  obtain ⟨hdone, hlost⟩ := occupy_lost (s := s₁.setWord (c.mappedAt k) normalMapped)
    blank block hresults₁ (Nat.mul_pos hpos hpg) (c := c) (by omega)
    (s.getMappingBlockIndexV2 c inRange block) (s₁.table.block c k)
  have hnext := writeBlock_retry hwrite hremap 9
  generalize (s₁.setWord (c.mappedAt k) normalMapped).occupy blank c block
    (s.getMappingBlockIndexV2 c inRange block) (offset * c.pgSize) (s₁.table.block c k) = s₂ at *
  have hmap : (s₂.upload blank encode c).getMappingBlockIndexV2 c inRange block =
      s₁.table.block c k := by
    rw [getMappingBlockIndexV2_of_lt hblock, mapping_upload _ (by omega), hmapping]
  have hkept := hsound.flash_upload blank encode hfit hblock
    (by rw [hmapping]; exact (freeSlot_spec hslot).2.2) 0 (by omega)
  rw [hmapping, Nat.add_zero, hlost] at hkept
  have hnil : (s₂.upload blank encode c).results = [] :=
    suffix_nil.mp (hdone ▸ results_upload s₂)
  obtain ⟨s', hwrite'⟩ : ∃ s', (s₂.upload blank encode c).writePages blank c
      ((s₂.upload blank encode c).getMappingBlockIndexV2 c inRange block) offset data =
        (s', true) := by
    unfold State.writePages State.operate
    rw [hnil]
    exact ⟨_, rfl⟩
  obtain ⟨htable', hbelow, -⟩ := writePages_true hwrite'
  refine ⟨s', hnext.trans (writeBlock_of_true encode 9 hwrite'), ?_⟩
  have hfirst := hbelow 0 hpos
  rw [hmap] at hfirst
  rw [getMappingBlockIndexV2_congr htable', hmap]
  exact hfirst.trans hkept

theorem keeps_of_no_remap {s : State Page} (hlen : offset + data.length ≤ c.pages)
    (hstay : ¬ (inRange block = true ∧ ∃ k, s.table.freeSlot c = some k)) :
    Keeps blank encode c inRange block offset data s := by
  refine keeps_of_below hlen fun _ s' hwrites => ?_
  rcases writeBlock_cases hwrites with hwrite | ⟨s₁, s₂, left', hwrite, hremap, -⟩
  · obtain ⟨htable, hbelow, -⟩ := writePages_true hwrite
    rw [getMappingBlockIndexV2_congr htable]
    exact hbelow
  · exact absurd ((State.touched_operate hwrite).table ▸ mtkBmtRemapBlock_true hremap) hstay

end Whole

/-- On `smallChip` two pages are written to logical block 1, from page 2 on; page `p` of the
    flash holds `p`, and a failure leaves 255. -/
def smallWrite (t : Table) (results : List (Option (Nat → Nat))) : State Nat × Bool :=
  State.mtkBmtWrite 0xff (fun w i => w i) smallChip (fun _ => true) ⟨t, fun p => p, results⟩
    (1 * 64 + 2) [70, 71]

end Rooter.Bmt
