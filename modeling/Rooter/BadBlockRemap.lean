import Rooter.BadBlockTable

/-!
# Remapping keeps the blocks apart

Slots of the pool are taken from the bottom while the table retreats from the top.  The
invariant `Valid` says that the slots up to the one of the table are in increasing order,
that the one of the table is not taken, and that a logical block is either where the scan
put it or in a slot that is taken.  Every step keeps it, as long as `bb_tbl` does not reach
into `bmt_tbl`.
-/

namespace Rooter.Bmt

open List Function

open Execution (Steps)

variable {Page : Type} {blank : Page} {encode : Words → Nat → Page} {c : Chip}

/-! ### What the operations change -/

namespace State

variable {s s' s'' : State Page} {first count first' count' : Nat}

/-- `s'` differs from `s` in `count` pages from `first` on, and in the results to come. -/
structure Touched (first count : Nat) (s s' : State Page) : Prop where
  table : s'.table = s.table
  flash : ∀ p, p < first ∨ first + count ≤ p → s'.flash p = s.flash p

variable {pages : Nat → Page}

theorem Touched.trans (h : Touched first count s s') (h' : Touched first count s' s'') :
    Touched first count s s'' :=
  ⟨h'.table.trans h.table, fun p hp => (h'.flash p hp).trans (h.flash p hp)⟩

theorem Touched.mono (h : Touched first count s s') (hfirst : first' ≤ first)
    (hlast : first + count ≤ first' + count') : Touched first' count' s s' := by
  refine ⟨h.table, fun p hp => h.flash p ?_⟩
  rcases hp with hp | hp
  · exact .inl (by omega)
  · exact .inr (by omega)

theorem touched_results (results : List (Option (Nat → Page))) :
    Touched first count s { s with results := results } :=
  ⟨rfl, fun _ _ => rfl⟩

theorem touched_operate {ok : Bool} (h : s.operate first count pages = (s', ok)) :
    Touched first count s s' := by
  have hout : ∀ p, p < first ∨ first + count ≤ p → ¬(first ≤ p ∧ p < first + count) := by
    omega
  unfold operate at h
  split at h
  · cases h
    exact ⟨rfl, fun p hp => if_neg (hout p hp)⟩
  · cases h
    exact ⟨rfl, fun p hp => if_neg (hout p hp)⟩

theorem operate_true (h : s.operate first count pages = (s', true)) :
    (∀ p, first ≤ p → p < first + count → s'.flash p = pages p) ∧
      (∀ r ∈ s.results.take 1, r = none) ∧ s'.results = s.results.tail := by
  unfold operate at h
  split at h
  · cases h
  next hresults =>
    cases h
    refine ⟨fun p hp hp' => if_pos ⟨hp, hp'⟩, ?_, rfl⟩
    rcases hs : s.results with _ | ⟨_ | left, rest⟩
    · simp
    · simp
    · exact absurd hs (hresults left rest)

theorem operate_false (h : s.operate first count pages = (s', false)) :
    ∃ left, s.results = some left :: s'.results ∧
      ∀ p, first ≤ p → p < first + count → s'.flash p = left p := by
  unfold operate at h
  split at h
  next left results hresults =>
    cases h
    exact ⟨left, hresults, fun p hp hp' => if_pos ⟨hp, hp'⟩⟩
  · cases h

theorem touched_bbtNandCopy (destBlk srcBlk maxOffset : Nat) :
    ∀ n i (s : State Page), i + n ≤ c.pages →
      Touched (destBlk * c.pages) c.pages s (bbtNandCopy c destBlk srcBlk maxOffset n i s) := by
  intro n
  induction n with
  | zero => exact fun _ s _ => touched_results s.results
  | succ n ih =>
    intro i s hi
    rw [bbtNandCopy]
    split
    · exact touched_results s.results
    split
    · exact touched_results _
    dsimp only
    split
    next heq =>
      exact (touched_results _).trans ((touched_operate heq).mono (by omega) (by omega))
    next heq =>
      exact ((touched_results _).trans ((touched_operate heq).mono (by omega) (by omega))).trans
        (ih _ _ (by omega))

end State

/-! ### Storing the table -/

section Store

variable {s s₁ s' : State Page} {n n' : Nat}

theorem ne_blockAt_of_lt {l : Nat} (hl : l < c.tableSize) (i : Nat) : l ≠ c.blockAt i := by
  unfold Chip.blockAt
  omega

theorem ne_mappedAt_of_lt {l : Nat} (hl : l < c.tableSize) (i : Nat) : l ≠ c.mappedAt i := by
  unfold Chip.mappedAt
  omega

theorem blockAt_ne {i j : Nat} (hij : i ≠ j) : c.blockAt i ≠ c.blockAt j := by
  unfold Chip.blockAt
  omega

theorem mappedAt_ne {i j : Nat} (hij : i ≠ j) : c.mappedAt i ≠ c.mappedAt j := by
  unfold Chip.mappedAt
  omega

theorem mappedAt_ne_blockAt (i j : Nat) : c.mappedAt i ≠ c.blockAt j := by
  unfold Chip.mappedAt Chip.blockAt
  omega

structure Put (encode : Words → Nat → Page) (c : Chip) (q : Nat) (s s' : State Page) : Prop where
  table : s'.table = s.table
  succeeded : ∀ r ∈ s.results.take 2, r = none
  results : s'.results <:+ s.results
  outside : ∀ p, p < q * c.pages ∨ q * c.pages + max c.pages c.bmtPgs ≤ p →
    s'.flash p = s.flash p
  written : ∀ i < c.bmtPgs, s'.flash (q * c.pages + i) = encode s.table.words i

structure Failed (c : Chip) (q : Nat) (s s' : State Page) : Prop where
  table : s'.table = s.table
  failed : ∃ r ∈ s.results.take 2, r ≠ none
  results : s'.results <:+ s.results
  outside : ∀ p, p < q * c.pages ∨ q * c.pages + max c.pages c.bmtPgs ≤ p →
    s'.flash p = s.flash p
  left : c.bmtPgs ≤ c.pages → ∃ left, some left ∈ s.results ∧
    ∀ i < c.bmtPgs, s'.flash (q * c.pages + i) = left (q * c.pages + i)

section Try

variable {s₂ : State Page} {q : Nat}

theorem touched_max {count : Nat} (h : State.Touched (q * c.pages) count s s₁)
    (hle : count ≤ max c.pages c.bmtPgs) :
    ∀ p, p < q * c.pages ∨ q * c.pages + max c.pages c.bmtPgs ≤ p → s₁.flash p = s.flash p :=
  (h.mono (Nat.le_refl _) (by omega)).flash

theorem failed_of_erase (h : s.bbtNandErase blank c q = (s₁, false)) : Failed c q s s₁ := by
  have htouched := State.touched_operate h
  obtain ⟨left, hresults, hleft⟩ := State.operate_false h
  refine ⟨htouched.table, ⟨some left, ?_, by simp⟩, ?_, touched_max htouched (by omega), ?_⟩
  · rw [hresults]
    simp
  · rw [hresults]
    exact suffix_cons _ _
  · intro hfit
    refine ⟨left, by rw [hresults]; exact mem_cons_self, fun i hi => ?_⟩
    exact hleft _ (by omega) (by omega)

theorem failed_of_write (herase : s.bbtNandErase blank c q = (s₁, true))
    (hwrite : s₁.writeBmt encode c q = (s₂, false)) : Failed c q s s₂ := by
  have he := State.touched_operate herase
  have hw := State.touched_operate hwrite
  obtain ⟨-, -, htail⟩ := State.operate_true herase
  obtain ⟨left, hresults, hleft⟩ := State.operate_false hwrite
  rw [htail] at hresults
  have hmem : some left ∈ s.results.take 2 := by
    cases hs : s.results with
    | nil => simp [hs] at hresults
    | cons r rest =>
      rw [hs] at hresults
      simp only [tail_cons] at hresults
      simp [hresults]
  refine ⟨hw.table.trans he.table, ⟨some left, hmem, by simp⟩, ?_, ?_, fun _ => ⟨left, ?_, ?_⟩⟩
  · exact IsSuffix.trans (hresults ▸ suffix_cons _ _) (tail_suffix _)
  · intro p hp
    exact (touched_max hw (by omega) p hp).trans (touched_max he (by omega) p hp)
  · exact mem_of_mem_take hmem
  · intro i hi
    exact hleft _ (by omega) (by omega)

theorem put_of_write (herase : s.bbtNandErase blank c q = (s₁, true))
    (hwrite : s₁.writeBmt encode c q = (s₂, true)) : Put encode c q s s₂ := by
  have he := State.touched_operate herase
  have hw := State.touched_operate hwrite
  obtain ⟨-, hfirst, htail⟩ := State.operate_true herase
  obtain ⟨hpages, hsecond, htail'⟩ := State.operate_true hwrite
  rw [htail] at hsecond htail'
  refine ⟨hw.table.trans he.table, ?_, ?_, ?_, ?_⟩
  · intro r hr
    cases hs : s.results with
    | nil => simp [hs] at hr
    | cons r' rest =>
      rw [hs] at hr hfirst hsecond
      rw [take_succ_cons, mem_cons] at hr
      rcases hr with rfl | hr
      · exact hfirst r (by simp)
      · exact hsecond r hr
  · exact htail' ▸ (tail_suffix _).trans (tail_suffix _)
  · intro p hp
    exact (touched_max hw (by omega) p hp).trans (touched_max he (by omega) p hp)
  · intro i hi
    rw [hpages _ (by omega) (by omega), he.table, Nat.add_sub_cancel_left]

end Try

/-- **Rule for `upload_bmt`.**  It stops, it puts the table where it stands, or it gives up
    the slot and goes on below. -/
theorem uploadBmt_induction {motive : Nat → State Page → State Page → Option Nat → Prop}
    (stop : ∀ n s, motive n s s none)
    (here : ∀ n s s', s.table.mapped c n ≠ normalMapped →
      Put encode c (s.table.block c n) s s' → motive (n + 1) s s' (some n))
    (retreat : ∀ n s s₁ s' r, s.table.mapped c n ≠ normalMapped →
      Failed c (s.table.block c n) s s₁ → motive n (s₁.setWord (c.blockAt n) 0) s' r →
        motive (n + 1) s s' r) :
    ∀ n s s' r, s.uploadBmt blank encode c n = (s', r) → motive n s s' r := by
  intro n
  induction n with
  | zero =>
    intro s s' r h
    cases h
    exact stop 0 s
  | succ n ih =>
    intro s s' r h
    rw [State.uploadBmt] at h
    split at h
    · cases h
      exact stop (n + 1) s
    next hmapped =>
      dsimp only at h
      split at h
      next s₁ herase =>
        exact retreat n s s₁ s' r hmapped (failed_of_erase herase) (ih _ _ _ h)
      next s₁ herase =>
        split at h
        next s₂ hwrite =>
          exact retreat n s s₂ s' r hmapped (failed_of_write herase hwrite) (ih _ _ _ h)
        next s₂ hwrite =>
          cases h
          exact here n s s' hmapped (put_of_write herase hwrite)

/-- The table went from below slot `n` to slot `n'`: the slots in between are given up, and
    nothing in front of their blocks has changed. -/
structure Stored (c : Chip) (n n' : Nat) (s s' : State Page) : Prop where
  lt : n' < n
  words : ∀ l < c.tableSize, s'.table.words l = s.table.words l
  block : ∀ i ≤ n', s'.table.block c i = s.table.block c i
  mapped : ∀ i, s'.table.mapped c i = s.table.mapped c i
  free : ∀ k, n' ≤ k → k < n → s.table.mapped c k ≠ normalMapped
  flash : ∀ p, (∀ k, n' ≤ k → k < n → p < s.table.block c k * c.pages) → s'.flash p = s.flash p

theorem stored_here (hmapped : s.table.mapped c n ≠ normalMapped) (htable : s'.table = s.table)
    (hflash : ∀ p < s.table.block c n * c.pages, s'.flash p = s.flash p) :
    Stored c (n + 1) n s s' where
  lt := n.lt_succ_self
  words l _ := by rw [htable]
  block i _ := by rw [htable]
  mapped i := by rw [htable]
  free k hk hk' := by rwa [show k = n by omega]
  flash p hp := hflash p (hp n (Nat.le_refl n) n.lt_succ_self)

theorem Stored.retreat (h : Stored c n n' (s₁.setWord (c.blockAt n) 0) s')
    (hmapped : s.table.mapped c n ≠ normalMapped) (htable : s₁.table = s.table)
    (hflash : ∀ p < s.table.block c n * c.pages, s₁.flash p = s.flash p) :
    Stored c (n + 1) n' s s' := by
  have hblock : ∀ i < n, (s₁.setWord (c.blockAt n) 0).table.block c i = s.table.block c i :=
    fun i hi => (update_of_ne (blockAt_ne (by omega)) _ _).trans
      (by rw [htable]; rfl)
  have hmap : ∀ i, (s₁.setWord (c.blockAt n) 0).table.mapped c i = s.table.mapped c i :=
    fun i => (update_of_ne (mappedAt_ne_blockAt i n) _ _).trans (by rw [htable]; rfl)
  have hlt := h.lt
  refine ⟨by omega, ?_, ?_, ?_, ?_, ?_⟩
  · intro l hl
    rw [h.words l hl, ← htable]
    exact update_of_ne (ne_blockAt_of_lt hl n) _ _
  · intro i hi
    rw [h.block i hi, hblock i (by omega)]
  · intro i
    rw [h.mapped i, hmap i]
  · intro k hk hk'
    rcases Nat.lt_succ_iff_lt_or_eq.mp hk' with hlt | rfl
    · exact hmap k ▸ h.free k hk hlt
    · exact hmapped
  · intro p hp
    refine (h.flash p fun k hk hk' => ?_).trans (hflash p (hp n (by omega) n.lt_succ_self))
    rw [hblock k hk']
    exact hp k hk (by omega)

theorem stored_uploadBmt : ∀ n (s s' : State Page) n',
    s.uploadBmt blank encode c n = (s', some n') → Stored c n n' s s' := by
  intro n s s' n' h
  refine uploadBmt_induction (motive := fun n s s' r => ∀ n', r = some n' → Stored c n n' s s')
    ?_ ?_ ?_ n s s' (some n') h n' rfl
  · intro n s n' hr
    cases hr
  · intro n s s' hmapped hput n' hr
    cases hr
    exact stored_here hmapped hput.table fun p hp => hput.outside p (.inl hp)
  · intro n s s₁ s' r hmapped hfailed ih n' hr
    exact (ih n' hr).retreat hmapped hfailed.table fun p hp => hfailed.outside p (.inl hp)

end Store

/-! ### The invariant -/

section Invariant

variable {t : Table} {pba q : Nat}

def Used (c : Chip) (pba : Nat) (t : Table) (q : Nat) : Prop :=
  q < pba ∨ ∃ k < t.bmtBlkIdx, t.mapped c k = normalMapped ∧ q = t.block c k

structure Valid (c : Chip) (pba : Nat) (t : Table) : Prop where
  pos : 0 < pba
  poolLba_le : c.poolLba ≤ pba
  le_block : ∀ i ≤ t.bmtBlkIdx, pba ≤ t.block c i
  block_lt : ∀ i j, i < j → j ≤ t.bmtBlkIdx → t.block c i < t.block c j
  table : t.mapped c t.bmtBlkIdx ≠ normalMapped
  used : ∀ l < c.poolLba, Used c pba t (t.words l)
  injective : ∀ i < c.poolLba, ∀ j < c.poolLba, t.words i = t.words j → i = j

section

variable (h : Valid c pba t) (hq : Used c pba t q)

include h hq

theorem Valid.lt_block_of_used {n : Nat} (hn : n ≤ t.bmtBlkIdx)
    (hfree : ∀ k, n ≤ k → k ≤ t.bmtBlkIdx → t.mapped c k ≠ normalMapped) : q < t.block c n := by
  rcases hq with hq | ⟨k, hk, hmapped, rfl⟩
  · exact Nat.lt_of_lt_of_le hq (h.le_block n hn)
  · refine h.block_lt k n (Nat.lt_of_not_le fun hnk => ?_) hn
    exact hfree k hnk (by omega) hmapped

theorem Valid.ne_block : q < t.block c t.bmtBlkIdx := by
  refine h.lt_block_of_used hq (Nat.le_refl _) fun k hk hk' => ?_
  rw [Nat.le_antisymm hk' hk]
  exact h.table

theorem Valid.ne_block_of_free {k : Nat} (hk : k < t.bmtBlkIdx) (hfree : t.mapped c k = noMapped) :
    q ≠ t.block c k := by
  rintro rfl
  rcases hq with hq | ⟨k', hk', hmapped, heq⟩
  · exact Nat.not_lt.mpr (h.le_block k (by omega)) hq
  · rcases Nat.lt_trichotomy k k' with hlt | rfl | hlt
    · exact Nat.ne_of_lt (h.block_lt k k' hlt (by omega)) heq
    · exact absurd (hfree.symm.trans hmapped) (by decide)
    · exact Nat.ne_of_gt (h.block_lt k' k hlt (by omega)) heq

end

/-! #### Storing keeps it -/

variable {s s' : State Page} {n : Nat}

theorem Stored.used (h : Stored c (s.table.bmtBlkIdx + 1) n s s') (hq : Used c pba s.table q) :
    Used c pba { s'.table with bmtBlkIdx := n } q := by
  rcases hq with hq | ⟨k, hk, hmapped, rfl⟩
  · exact .inl hq
  · have hkn : k < n := Nat.lt_of_not_le fun hnk => h.free k hnk (by omega) hmapped
    exact .inr ⟨k, hkn, (h.mapped k).trans hmapped, (h.block k (by omega)).symm⟩

theorem Valid.stored (hv : Valid c pba s.table) (hsep : c.poolLba ≤ c.tableSize)
    (h : Stored c (s.table.bmtBlkIdx + 1) n s s') :
    Valid c pba { s'.table with bmtBlkIdx := n } := by
  have hn := h.lt
  have hwords : ∀ l < c.poolLba, s'.table.words l = s.table.words l :=
    fun l hl => h.words l (by omega)
  refine ⟨hv.pos, hv.poolLba_le, ?_, ?_, ?_, ?_, ?_⟩
  · intro i (hi : i ≤ n)
    have hle := hv.le_block i (by omega)
    rwa [← h.block i hi] at hle
  · intro i j hij (hj : j ≤ n)
    have hlt := hv.block_lt i j hij (by omega)
    rwa [← h.block i (by omega), ← h.block j hj] at hlt
  · intro hmapped
    exact h.free n (Nat.le_refl n) hn ((h.mapped n).symm.trans hmapped)
  · intro l hl
    have hu := h.used (hv.used l hl)
    rwa [← hwords l hl] at hu
  · intro i hi j hj heq
    exact hv.injective i hi j hj (by rw [← hwords i hi, ← hwords j hj]; exact heq)

theorem page_lt {block pages i : Nat} (hq : q < block) (hi : i < pages) :
    q * pages + i < block * pages := by
  have hle := Nat.mul_le_mul_right pages hq
  rw [Nat.succ_mul] at hle
  omega

theorem Stored.flash_used (h : Stored c (s.table.bmtBlkIdx + 1) n s s')
    (hv : Valid c pba s.table) (hq : Used c pba s.table q) {i : Nat} (hi : i < c.pages) :
    s'.flash (q * c.pages + i) = s.flash (q * c.pages + i) := by
  refine h.flash _ fun k hk hk' => page_lt ?_ hi
  exact hv.lt_block_of_used hq (by omega) fun j hj hj' => h.free j (by omega) (by omega)

/-! #### Taking a slot keeps it -/

/-- The tables when logical block `block` was given slot `k`. -/
def Table.take (c : Chip) (t : Table) (k block : Nat) : Table :=
  { t with
    words := update (update t.words (c.mappedAt k) normalMapped) block
      (t.block c k) }

section Take

variable {k block : Nat} (hblock : block < c.tableSize)

include hblock

theorem block_take (i : Nat) : (t.take c k block).block c i = t.block c i :=
  (update_of_ne (ne_blockAt_of_lt hblock i).symm _ _).trans
    (update_of_ne (mappedAt_ne_blockAt k i).symm _ _)

theorem mapped_take_self : (t.take c k block).mapped c k = normalMapped :=
  (update_of_ne (ne_mappedAt_of_lt hblock k).symm _ _).trans (update_self _ _ _)

theorem mapped_take_of_ne {i : Nat} (hi : i ≠ k) : (t.take c k block).mapped c i = t.mapped c i :=
  (update_of_ne (ne_mappedAt_of_lt hblock i).symm _ _).trans
    (update_of_ne (mappedAt_ne hi) _ _)

omit hblock in
theorem words_take_self : (t.take c k block).words block = t.block c k :=
  update_self _ _ _

omit hblock in
theorem words_take_of_ne {l : Nat} (hl : l < c.tableSize) (hne : l ≠ block) :
    (t.take c k block).words l = t.words l :=
  (update_of_ne hne _ _).trans (update_of_ne (ne_mappedAt_of_lt hl k) _ _)

theorem Used.take (hq : Used c pba t q) : Used c pba (t.take c k block) q := by
  rcases hq with hq | ⟨i, hi, hmapped, rfl⟩
  · exact .inl hq
  · refine .inr ⟨i, hi, ?_, (block_take hblock i).symm⟩
    by_cases hik : i = k
    · rw [hik, mapped_take_self hblock]
    · rw [mapped_take_of_ne hblock hik, hmapped]

theorem used_take_self (hk : k < t.bmtBlkIdx) : Used c pba (t.take c k block) (t.block c k) :=
  .inr ⟨k, hk, mapped_take_self hblock, (block_take hblock k).symm⟩

theorem Valid.take (hv : Valid c pba t) (hsep : c.poolLba ≤ c.tableSize) (hk : k < t.bmtBlkIdx)
    (hfree : t.mapped c k = noMapped) : Valid c pba (t.take c k block) := by
  have hwords : ∀ l < c.poolLba, l ≠ block → (t.take c k block).words l = t.words l :=
    fun l hl => words_take_of_ne (by omega)
  have hnew : ∀ l < c.poolLba, t.words l ≠ t.block c k :=
    fun l hl => hv.ne_block_of_free (hv.used l hl) hk hfree
  refine ⟨hv.pos, hv.poolLba_le, ?_, ?_, ?_, ?_, ?_⟩
  · intro i hi
    rw [block_take hblock]
    exact hv.le_block i hi
  · intro i j hij hj
    rw [block_take hblock, block_take hblock]
    exact hv.block_lt i j hij hj
  · exact (mapped_take_of_ne hblock (Nat.ne_of_gt hk)).trans_ne hv.table
  · intro l hl
    by_cases hlb : l = block
    · rw [hlb, words_take_self]
      exact used_take_self hblock hk
    · rw [hwords l hl hlb]
      exact (hv.used l hl).take hblock
  · intro i hi j hj heq
    by_cases hib : i = block <;> by_cases hjb : j = block
    · rw [hib, hjb]
    · rw [hib, words_take_self, hwords j hj hjb] at heq
      exact absurd heq.symm (hnew j hj)
    · rw [hjb, words_take_self, hwords i hi hib] at heq
      exact absurd heq (hnew i hi)
    · rw [hwords i hi hib, hwords j hj hjb] at heq
      exact hv.injective i hi j hj heq

end Take

end Invariant

/-! ### Runs -/

section Run

variable (blank : Page) (encode : Words → Nat → Page) (c : Chip)

/-- The table is stored once by `mtk_bmt_init_v2`, right after the scan; then blocks are
    remapped. -/
inductive Action where
  | store
  | remap (block mappedBlock copyLen : Nat)

def State.step (s : State Page) : Action → State Page
  | .store => s.upload blank encode c
  | .remap block mappedBlock copyLen =>
      (s.remapBlockV2 blank encode c block mappedBlock copyLen).1

/-- The block is below `pool_lba`, and `upload_bmt` does not report a failure. -/
def Accepted (s : State Page) (a : Action) : Prop :=
  (∀ block mappedBlock copyLen, a = .remap block mappedBlock copyLen → block < c.poolLba) ∧
    (s.step blank encode c a).table.bmtBlkIdx ≠ 0xffff

def State.content (s : State Page) (q : Nat) (i : Fin c.pages) : Page :=
  s.flash (q * c.pages + i)

/-- Logical block `l` is where it was, with what it held. -/
structure Kept (l : Nat) (s s' : State Page) : Prop where
  mapping : s'.table.words l = s.table.words l
  content : ∀ inRange, s'.content c (s'.getMappingBlockIndexV2 c inRange l) =
    s.content c (s.getMappingBlockIndexV2 c inRange l)

structure Apart (s : State Page) : Prop where
  injective : ∀ i < c.poolLba, ∀ j < c.poolLba, s.table.words i = s.table.words j → i = j
  ne_table : ∀ i < c.poolLba, s.table.words i ≠ s.table.block c s.table.bmtBlkIdx
  kept : ∀ block mappedBlock copyLen,
    Accepted blank encode c s (.remap block mappedBlock copyLen) →
      ∀ l < c.poolLba, l ≠ block →
        Kept c l s (s.remapBlockV2 blank encode c block mappedBlock copyLen).1

/-- Every state that is reached from the tables `t`, whatever is in the flash and whatever fails. -/
def StaysApart (t : Table) : Prop :=
  ∀ flash results s,
    Steps (fun s a => some (s.step blank encode c a)) (Accepted blank encode c)
      ⟨t, flash, results⟩ s → Apart blank encode c s

end Run

section Step

variable {s : State Page} {pba : Nat}

theorem exists_stored_of_upload (h : (s.upload blank encode c).table.bmtBlkIdx ≠ 0xffff) :
    ∃ s' n, Stored c (s.table.bmtBlkIdx + 1) n s s' ∧
      s.upload blank encode c = { s' with table.bmtBlkIdx := n } := by
  unfold State.upload at h ⊢
  rcases hup : s.uploadBmt blank encode c (s.table.bmtBlkIdx + 1) with ⟨s', _ | n⟩
  · rw [hup] at h
    exact absurd rfl h
  · exact ⟨s', n, stored_uploadBmt _ _ _ _ hup, rfl⟩

/-- The state of `remap_block_v2` before it stores the table. -/
structure Taken (c : Chip) (k block : Nat) (s s₁ : State Page) : Prop where
  lt : k < s.table.bmtBlkIdx
  free : s.table.mapped c k = noMapped
  table : s₁.table = s.table.take c k block
  flash : ∀ p, p < s.table.block c k * c.pages ∨ s.table.block c k * c.pages + c.pages ≤ p →
    s₁.flash p = s.flash p

variable (blank) in
theorem taken_occupy {k : Nat} (hlt : k < s.table.bmtBlkIdx)
    (hfree : s.table.mapped c k = noMapped) (block mappedBlock copyLen : Nat) :
    Taken c k block s ((s.setWord (c.mappedAt k) normalMapped).occupy blank c block mappedBlock
      copyLen (s.table.block c k)) := by
  have htouched : State.Touched (s.table.block c k * c.pages) c.pages
      ((s.setWord (c.mappedAt k) normalMapped).setWord block (s.table.block c k))
      ((s.setWord (c.mappedAt k) normalMapped).occupy blank c block mappedBlock
        copyLen (s.table.block c k)) := by
    unfold State.occupy
    dsimp only
    split
    · exact (State.touched_operate rfl).trans
        (State.touched_bbtNandCopy _ _ _ _ _ _ (by omega))
    · exact State.touched_operate rfl
  exact ⟨hlt, hfree, htouched.table, htouched.flash⟩

/-- The slot that `find_valid_block_in_pool` finds. -/
def Table.freeSlot (c : Chip) (t : Table) : Option Nat :=
  (range t.bmtBlkIdx).find? fun i => t.block c i ≠ 0 ∧ t.mapped c i = noMapped

variable {block : Nat}

theorem freeSlot_spec {t : Table} {k : Nat} (h : t.freeSlot c = some k) :
    k < t.bmtBlkIdx ∧ t.mapped c k = noMapped ∧ t.block c k ≠ 0 := by
  have hslot := find?_some h
  rw [decide_eq_true_eq] at hslot
  exact ⟨mem_range.mp (mem_of_find?_eq_some h), hslot.2, hslot.1⟩

variable (blank encode) in
theorem remapBlockV2_of_slot {k : Nat} (h : s.table.freeSlot c = some k)
    (block mappedBlock copyLen : Nat) :
    s.remapBlockV2 blank encode c block mappedBlock copyLen =
      (((s.setWord (c.mappedAt k) normalMapped).occupy blank c block mappedBlock copyLen
        (s.table.block c k)).upload blank encode c, true) := by
  have hblock : (s.setWord (c.mappedAt k) normalMapped).table.block c k = s.table.block c k :=
    update_of_ne (mappedAt_ne_blockAt k k).symm _ _
  unfold Table.freeSlot at h
  unfold State.remapBlockV2 State.findValidBlockInPool
  rw [h]
  dsimp only
  rw [hblock, if_neg (freeSlot_spec h).2.2]

variable (blank encode) in
theorem remapBlockV2_of_none (h : s.table.freeSlot c = none) (block mappedBlock copyLen : Nat) :
    s.remapBlockV2 blank encode c block mappedBlock copyLen = (s, false) := by
  unfold Table.freeSlot at h
  unfold State.remapBlockV2 State.findValidBlockInPool
  rw [h]
  rfl

variable (blank encode c) in
theorem remapBlockV2_cases (s : State Page) (block mappedBlock copyLen : Nat) :
    s.remapBlockV2 blank encode c block mappedBlock copyLen = (s, false) ∨
      ∃ k s₁, Taken c k block s s₁ ∧ s.table.block c k ≠ 0 ∧
        s.remapBlockV2 blank encode c block mappedBlock copyLen =
          (s₁.upload blank encode c, true) := by
  rcases hslot : s.table.freeSlot c with _ | k
  · exact Or.inl (remapBlockV2_of_none blank encode hslot block mappedBlock copyLen)
  · obtain ⟨hk, hfree, hne⟩ := freeSlot_spec hslot
    exact Or.inr ⟨k, _, taken_occupy blank hk hfree block mappedBlock copyLen, hne,
      remapBlockV2_of_slot blank encode hslot block mappedBlock copyLen⟩

theorem Valid.upload (hv : Valid c pba s.table) (hsep : c.poolLba ≤ c.tableSize)
    (h : (s.upload blank encode c).table.bmtBlkIdx ≠ 0xffff) :
    Valid c pba (s.upload blank encode c).table := by
  obtain ⟨s', n, hstored, heq⟩ := exists_stored_of_upload h
  rw [heq]
  exact hv.stored hsep hstored

theorem Taken.valid {k : Nat} {s₁ : State Page} (h : Taken c k block s s₁)
    (hv : Valid c pba s.table) (hsep : c.poolLba ≤ c.tableSize) (hblock : block < c.poolLba) :
    Valid c pba s₁.table := by
  rw [h.table]
  exact hv.take (by omega) hsep h.lt h.free

theorem Valid.step (hv : Valid c pba s.table) (hsep : c.poolLba ≤ c.tableSize) {a : Action}
    (hok : Accepted blank encode c s a) : Valid c pba (s.step blank encode c a).table := by
  obtain ⟨hbelow, hup⟩ := hok
  cases a with
  | store => exact hv.upload hsep hup
  | remap block mappedBlock copyLen =>
    unfold State.step at hup ⊢
    dsimp only at hup ⊢
    rcases remapBlockV2_cases blank encode c s block mappedBlock copyLen with
      heq | ⟨k, s₁, htaken, -, heq⟩
    · rw [heq]
      exact hv
    · rw [heq] at hup ⊢
      exact (htaken.valid hv hsep (hbelow _ _ _ rfl)).upload hsep hup

theorem page_out {q pages i : Nat} (hq : q ≠ block) (hi : i < pages) :
    q * pages + i < block * pages ∨ block * pages + pages ≤ q * pages + i := by
  rcases Nat.lt_or_gt_of_ne hq with hlt | hlt
  · exact .inl (page_lt hlt hi)
  · have hle := Nat.mul_le_mul_right pages hlt
    rw [Nat.succ_mul] at hle
    exact .inr (by omega)

/-- A logical block that is not mapped is in the area that was mapped at the start. -/
theorem Valid.used_mapping (hv : Valid c pba s.table) (inRange : Nat → Bool) {l : Nat}
    (hl : l < c.poolLba) : Used c pba s.table (s.getMappingBlockIndexV2 c inRange l) := by
  unfold State.getMappingBlockIndexV2
  rw [if_neg (by omega)]
  split
  · exact hv.used l hl
  · exact .inl (Nat.lt_of_lt_of_le hl hv.poolLba_le)

theorem Valid.kept (hv : Valid c pba s.table) (hsep : c.poolLba ≤ c.tableSize)
    {mappedBlock copyLen l : Nat}
    (hok : Accepted blank encode c s (.remap block mappedBlock copyLen)) (hl : l < c.poolLba)
    (hne : l ≠ block) : Kept c l s (s.remapBlockV2 blank encode c block mappedBlock copyLen).1 := by
  obtain ⟨hbelow, hup⟩ := hok
  unfold State.step at hup
  rcases remapBlockV2_cases blank encode c s block mappedBlock copyLen with
    heq | ⟨k, s₁, htaken, -, heq⟩
  · rw [heq]
    exact ⟨rfl, fun _ => rfl⟩
  dsimp only at hup
  rw [heq] at hup ⊢
  obtain ⟨s', n, hstored, hupload⟩ := exists_stored_of_upload hup
  have hblock : block < c.tableSize := Nat.lt_of_lt_of_le (hbelow _ _ _ rfl) hsep
  have hlt : l < c.tableSize := Nat.lt_of_lt_of_le hl hsep
  have hwords : (s₁.upload blank encode c).table.words l = s.table.words l := by
    rw [hupload]
    exact (hstored.words l hlt).trans (htaken.table ▸ words_take_of_ne hlt hne)
  refine ⟨hwords, fun inRange => ?_⟩
  have hmapping : (s₁.upload blank encode c).getMappingBlockIndexV2 c inRange l =
      s.getMappingBlockIndexV2 c inRange l := by
    unfold State.getMappingBlockIndexV2
    rw [hwords]
  have hused := hv.used_mapping inRange hl
  have hused₁ : Used c pba s₁.table (s.getMappingBlockIndexV2 c inRange l) :=
    htaken.table ▸ hused.take hblock
  rw [hmapping]
  funext i
  calc (s₁.upload blank encode c).flash _
      = s'.flash _ := by rw [hupload]
    _ = s₁.flash _ := hstored.flash_used (htaken.valid hv hsep (hbelow _ _ _ rfl)) hused₁ i.isLt
    _ = s.flash _ :=
        htaken.flash _ (page_out (hv.ne_block_of_free hused htaken.lt htaken.free) i.isLt)

end Step

end Rooter.Bmt
