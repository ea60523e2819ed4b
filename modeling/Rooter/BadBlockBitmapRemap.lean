import Rooter.BadBlockBitmap
import Rooter.BadBlockWrite

/-!
# Marking a block in the bad block bitmap

`remap_block_bbt` sets the bits of the block that went bad, stores the bitmap, and copies the
block to the one that its logical block is mapped to now.  But the mapping is computed from
the bitmap: all logical blocks behind it move up by one good block, and only one block is
copied.  Nothing is lost if and only if the logical block is the last one on a good block and
there is a bad one in front to take it in.
-/

namespace Rooter.Bmt

open List Ranking

variable {Page : Type}

namespace State

variable (blank : Page) (encode : Words → Nat → Page) (g : Layout) (c : Chip)

/-- The last two lines of `bbt_set_block_state`.  Here `bmt_blk_idx` is the block of the
    bitmap, and the words are its bytes. -/
def storeBbt (s : State Page) : State Page :=
  let s := (s.bbtNandErase blank c s.table.bmtBlkIdx).1
  (s.writeBmt encode c s.table.bmtBlkIdx).1

def bbtSetBlockState (s : State Page) (block : Nat) (bad : Bool) : State Page :=
  let mask := 3 <<< (block % 4 * 2)
  let byte := s.table.words (block / 4)
  (s.setWord (block / 4) (if bad then byte ||| mask else byte &&& (0xff ^^^ mask))).storeBbt
    blank encode c

def remapBlockBbt (s : State Page) (block mappedBlk copyLen : Nat) : State Page × Bool :=
  match mappingBlockInRange g c block with
  | none => (s, false)
  | some _ =>
      let s := s.bbtSetBlockState blank encode c mappedBlk true
      let newBlk := (getMappingBlockIndexBbt g c s.table.words block % 0x10000).toNat
      let s := (s.bbtNandErase blank c newBlk).1
      (if 0 < copyLen then bbtNandCopy c newBlk mappedBlk copyLen c.pages 0 s else s, true)

def readBbt (s : State Page) (l : Nat) : Fin c.pages → Page :=
  s.content c (getMappingBlockIndexBbt g c s.table.words l).toNat

end State

/-! ### The bitmap with one more bad block -/

section Set

variable {w : Words} {b x : Nat}

variable (w b) in
/-- The bytes of the bitmap when `b` is marked. -/
def mark : Words := Function.update w (b / 4) (w (b / 4) ||| 3 <<< (b % 4 * 2))

theorem bbtBlockIsBad_natCast (hx : x < 0x10000) :
    bbtBlockIsBad w x = (w (x / 4) &&& 3 <<< (x % 4 * 2) != 0) := by
  unfold bbtBlockIsBad
  rw [show ((x : Int) % 0x10000).toNat = x by omega]

theorem bbtBlockIsBad_mark (hb : b < 0x10000) (hx : x < 0x10000) :
    bbtBlockIsBad (mark w b) x = (bbtBlockIsBad w x || x == b) := by
  have hmask : ∀ i < 4, ∀ j < 4, (3 <<< (i * 2) &&& 3 <<< (j * 2) != 0) = (j == i) := by
    decide
  rw [bbtBlockIsBad_natCast hx, bbtBlockIsBad_natCast hx]
  unfold mark
  by_cases hword : x / 4 = b / 4
  · rw [hword, Function.update_self, Nat.and_or_distrib_right]
    have hsame : (x == b) = (x % 4 == b % 4) := by
      rw [Bool.eq_iff_iff, beq_iff_eq, beq_iff_eq]
      omega
    rw [hsame, ← hmask (b % 4) (by omega) (x % 4) (by omega)]
    rw [Bool.eq_iff_iff, Bool.or_eq_true, bne_iff_ne, bne_iff_ne, bne_iff_ne, Ne,
      Nat.or_eq_zero_iff, Decidable.not_and_iff_not_or_not]
  · rw [Function.update_of_ne hword, show (x == b) = false from beq_false_of_ne (by
      rintro rfl
      exact hword rfl), Bool.or_false]

theorem place_mark {s e : Nat} (hle : e ≤ 0x10000) (hb : b < 0x10000) (l : Nat) :
    place (isGood (mark w b)) s e l = place (demote (isGood w) b) s e l := by
  refine place_congr fun a _ ha => ?_
  unfold isGood
  rw [bbtBlockIsBad_mark hb (by omega), Bool.not_or]
  rfl

end Set

/-! ### Where the blocks of the range go -/

section Places

variable {p : Nat → Bool} {s e block m : Nat}

variable (p s e) in
def countGood : Nat := ((range' s (e - s)).filter p).length

theorem place_of_good (hplace : place p s e block = some m) (hm : p m = true) :
    ((range' s (e - s)).filter p)[block - s]? = some m := by
  unfold place at hplace
  by_cases hlt : block - s < countGood p s e
  · rwa [getElem?_ranked_of_lt hlt] at hplace
  · rw [getElem?_ranked_of_le (Nat.le_of_not_lt hlt)] at hplace
    have hbad := (mem_filter.mp (mem_of_getElem? hplace)).2
    rw [hm] at hbad
    cases hbad

theorem good_of_lt (hplace : place p s e block = some m) (hlt : block - s < countGood p s e) :
    p m = true := by
  unfold place at hplace
  rw [getElem?_ranked_of_lt hlt] at hplace
  exact (mem_filter.mp (mem_of_getElem? hplace)).2

theorem place_demote_of_bad (hplace : place p s e block = some m) (hm : p m = false) :
    place (demote p m) s e block = some m := by
  rw [← hplace]
  refine place_congr fun a _ _ => ?_
  unfold demote
  by_cases ham : a = m
  · rw [ham, hm, Bool.false_and]
  · rw [bne_iff_ne.mpr ham, Bool.and_true]

section

variable (hs : s ≤ block) (hplace : place p s e block = some m)

include hs hplace

theorem place_demote_of_lt (hlt : block + 1 < s + countGood p s e) :
    place (demote p m) s e block = place p s e (block + 1) := by
  have hm := good_of_lt hplace (by omega)
  unfold place
  rw [ranked_demote_self nodup_range' (place_of_good hplace hm)
    (show block - s + 1 < countGood p s e by omega), Nat.sub_add_comm hs]

theorem place_demote_of_last (hlast : block + 1 = s + countGood p s e) {n : Nat}
    (hn : place (demote p m) s e block = some n) :
    demote p m n = false ∧ ∀ j, s ≤ j → j < n → demote p m j = true := by
  have hm := good_of_lt hplace (by omega)
  unfold place at hn
  rw [ranked_demote_last nodup_range' (place_of_good hplace hm)
    (show block - s + 1 = countGood p s e by omega), find?_range'_eq_some] at hn
  obtain ⟨hfirst, -, hmin⟩ := hn
  refine ⟨?_, fun j hj hjn => ?_⟩
  · exact Bool.not_eq_eq_eq_not.mp hfirst
  · have h := hmin j hj hjn
    rwa [Bool.not_not] at h

theorem le_of_last (hlast : block + 1 = s + countGood p s e) {b : Nat} (hb : s ≤ b) (he : b < e)
    (hgood : p b = true) : b ≤ m := by
  have hm := place_of_good hplace (good_of_lt hplace (by omega))
  have hsorted : ((range' s (e - s)).filter p).Pairwise (· < ·) :=
    Pairwise.filter p pairwise_lt_range'
  have hmem : b ∈ (range' s (e - s)).filter p :=
    mem_filter.mpr ⟨mem_range'_1.mpr ⟨hb, by omega⟩, hgood⟩
  obtain ⟨i, hi, rfl⟩ := mem_iff_getElem.mp hmem
  obtain ⟨hk, rfl⟩ := List.getElem?_eq_some_iff.mp hm
  have hik : i ≤ block - s := by
    change i < countGood p s e at hi
    omega
  rcases Nat.eq_or_lt_of_le hik with rfl | hik
  · exact Nat.le_refl _
  · exact Nat.le_of_lt (pairwise_iff_getElem.mp hsorted _ _ hi hk hik)

end

variable (p s e block) in
/-- The logical block is the last one on a good block, and a bad one lies in front of a good one. -/
def Spare : Prop :=
  block + 1 = s + countGood p s e ∧ ∃ b b', s ≤ b ∧ b < b' ∧ b' < e ∧ p b = false ∧ p b' = true

variable {n : Nat} (hs : s ≤ block) (he : block < e) (hm : place p s e block = some m)
  (hn : place (demote p m) s e block = some n)

include hs hm hn

/-- The new block is none of those that are in use if and only if there is one to spare. -/
theorem Spare.ne (h : Spare p s e block) : n ≠ m ∧ p m = true := by
  obtain ⟨hlast, b, b', hb, hbb', hb', hbad, hgood⟩ := h
  obtain ⟨-, hmin⟩ := place_demote_of_last hs hm hlast hn
  have hpm := good_of_lt hm (by omega)
  refine ⟨?_, hpm⟩
  rintro rfl
  have hle := le_of_last hs hm hlast (by omega) hb' hgood
  have hdem := hmin b hb (by omega)
  unfold demote at hdem
  rw [hbad] at hdem
  cases hdem

theorem Spare.place_eq (h : Spare p s e block) {l q : Nat} (hl : s ≤ l) (hne : l ≠ block)
    (hq : place p s e l = some q) (hgood : p q = true) :
    place (demote p m) s e l = some q ∧ q ≠ n ∧ q ≠ m := by
  obtain ⟨hlast, -⟩ := h
  obtain ⟨hdem, -⟩ := place_demote_of_last hs hm hlast hn
  have hpm := place_of_good hm (good_of_lt hm (by omega))
  have hpq := place_of_good hq hgood
  have hlt : l - s < block - s := by
    obtain ⟨hlen, -⟩ := List.getElem?_eq_some_iff.mp hpq
    change l - s < countGood p s e at hlen
    omega
  have hqm : q ≠ m := by
    rintro rfl
    have hnodup : ((range' s (e - s)).filter p).Nodup := Nodup.filter p nodup_range'
    obtain ⟨hi, hiq⟩ := List.getElem?_eq_some_iff.mp hpq
    obtain ⟨hj, hjq⟩ := List.getElem?_eq_some_iff.mp hpm
    have hij := hnodup.getElem_inj_iff.mp (hiq.trans hjq.symm)
    omega
  refine ⟨?_, ?_, hqm⟩
  · rw [← hq]
    exact ranked_demote_of_lt nodup_range' hpm hlt
  · rintro rfl
    unfold demote at hdem
    rw [hgood, bne_iff_ne.mpr hqm] at hdem
    cases hdem

theorem spare_of_ne (hne : ∀ l q, s ≤ l → l < e → place p s e l = some q →
    l = block ∨ p q = true → q ≠ n) (he : block < e) : Spare p s e block := by
  have hmn : m ≠ n := hne block m hs he hm (.inl rfl)
  have hpm : p m = true := by
    rw [← Bool.not_eq_false]
    intro hbad
    rw [place_demote_of_bad hm hbad] at hn
    exact hmn (Option.some.inj hn)
  have hlt : block - s < countGood p s e := by
    obtain ⟨hlt, -⟩ := List.getElem?_eq_some_iff.mp (place_of_good hm hpm)
    exact hlt
  have hlast : block + 1 = s + countGood p s e := by
    refine Nat.le_antisymm (by omega) (Nat.le_of_not_lt fun hmore => ?_)
    have hle : countGood p s e ≤ e - s := by
      have hlen := length_filter_le p (range' s (e - s))
      rwa [length_range'] at hlen
    rw [place_demote_of_lt hs hm hmore] at hn
    exact hne (block + 1) n (by omega) (by omega) hn (.inr (good_of_lt hn (by omega))) rfl
  refine ⟨hlast, ?_⟩
  obtain ⟨hdem, hmin⟩ := place_demote_of_last hs hm hlast hn
  have hpn : p n = false := by
    unfold demote at hdem
    rwa [bne_iff_ne.mpr (Ne.symm hmn), Bool.and_true] at hdem
  have hnm : n < m := by
    refine Nat.lt_of_le_of_ne (Nat.le_of_not_lt fun hlt => ?_) (Ne.symm hmn)
    have hm' := hmin m (mem_of_place hm).1 hlt
    unfold demote at hm'
    rw [bne_self_eq_false, Bool.and_false] at hm'
    cases hm'
  exact ⟨n, m, (mem_of_place hn).1, hnm, (mem_of_place hm).2, hpn, hpm⟩

end Places

/-! ### What is done to the flash -/

section Flash

variable {blank : Page} {encode : Words → Nat → Page} {g : Layout} {c : Chip}
  {s s' : State Page} {block m : Nat}

variable (blank) in
theorem touched_bbtNandErase (s : State Page) (q : Nat) :
    State.Touched (q * c.pages) c.pages s (s.bbtNandErase blank c q).1 :=
  operate_fst_touched _ _ _ _

theorem touched_storeBbt (hfit : c.bmtPgs ≤ c.pages) (s : State Page) :
    State.Touched (s.table.bmtBlkIdx * c.pages) c.pages s (s.storeBbt blank encode c) := by
  unfold State.storeBbt
  have h₁ := touched_bbtNandErase blank s s.table.bmtBlkIdx (c := c)
  generalize (s.bbtNandErase blank c s.table.bmtBlkIdx).1 = s₁ at h₁ ⊢
  dsimp only
  rw [h₁.table]
  exact h₁.trans ((operate_fst_touched _ _ _ _).mono (Nat.le_refl _) (by omega))

theorem results_bbtSetBlockState (h : s.results = []) :
    (s.bbtSetBlockState blank encode c m true).results = [] := by
  have hset : ∀ i v, (s.setWord i v).results = s.results := fun _ _ => rfl
  unfold State.bbtSetBlockState State.storeBbt State.writeBmt State.bbtNandErase
  rw [results_operate, results_operate, hset, h]
  rfl

/-! #### Two contents of the flash -/

section Agree

variable {P Q : Nat → Prop}

/-- States with the same tables and without failures to come, that agree on the pages of `P`. -/
structure Agree (P : Nat → Prop) (s s' : State Page) : Prop where
  table : s'.table = s.table
  results : s.results = [] ∧ s'.results = []
  flash : ∀ p, P p → s'.flash p = s.flash p

variable (h : Agree P s s')

include h

theorem Agree.imp (hQ : ∀ p, Q p → P p) : Agree Q s s' :=
  ⟨h.table, h.results, fun p hp => h.flash p (hQ p hp)⟩

theorem Agree.setWord (i v : Nat) : Agree P (s.setWord i v) (s'.setWord i v) := by
  refine ⟨?_, h.results, h.flash⟩
  unfold State.setWord
  rw [h.table]

theorem Agree.operate (first count : Nat) {pages pages' : Nat → Page}
    (hQ : ∀ p, Q p → if first ≤ p ∧ p < first + count then pages' p = pages p else P p) :
    Agree Q (s.operate first count pages).1 (s'.operate first count pages').1 := by
  unfold State.operate
  rw [h.results.1, h.results.2]
  refine ⟨h.table, ⟨rfl, rfl⟩, fun p hp => ?_⟩
  have hP := hQ p hp
  dsimp only
  split at hP
  next hin => rw [if_pos hin, if_pos hin, hP]
  next hout => rw [if_neg hout, if_neg hout, h.flash p hP]

variable (blank) in
theorem Agree.bbtNandErase (q : Nat) :
    Agree (fun p => P p ∨ q * c.pages ≤ p ∧ p < q * c.pages + c.pages)
      (s.bbtNandErase blank c q).1 (s'.bbtNandErase blank c q).1 := by
  refine h.operate _ _ fun p hp => ?_
  split
  · rfl
  next hout => exact hp.resolve_right hout

theorem Agree.storeBbt : Agree (fun p => P p ∨ s.table.bmtBlkIdx * c.pages ≤ p ∧
      p < s.table.bmtBlkIdx * c.pages + c.pages)
    (s.storeBbt blank encode c) (s'.storeBbt blank encode c) := by
  have h₁ := h.bbtNandErase blank s.table.bmtBlkIdx (c := c)
  unfold State.storeBbt
  rw [h.table]
  generalize (s.bbtNandErase blank c s.table.bmtBlkIdx).1 = s₁ at h₁ ⊢
  generalize (s'.bbtNandErase blank c s.table.bmtBlkIdx).1 = s₁' at h₁ ⊢
  unfold State.writeBmt
  dsimp only
  rw [h₁.table]
  refine h₁.operate _ _ fun p hp => ?_
  split
  · rfl
  · exact hp

omit h in
theorem bbtNandCopy_of_nil (hs : s.results = []) {dest src maxOffset n i : Nat} :
    s.bbtNandCopy c dest src maxOffset (n + 1) i =
      if maxOffset ≤ i * c.pgSize then s
      else (s.operate (dest * c.pages + i) 1
        fun _ => s.flash (src * c.pages + i)).1.bbtNandCopy c dest src maxOffset n (i + 1) := by
  obtain ⟨t, flash, results⟩ := s
  subst hs
  rw [State.bbtNandCopy]
  rfl

omit h in
theorem Agree.bbtNandCopy (dest src maxOffset : Nat) : ∀ n i (s s' : State Page),
    Agree (fun _ => True) s s' → Agree (fun _ => True) (s.bbtNandCopy c dest src maxOffset n i)
      (s'.bbtNandCopy c dest src maxOffset n i) := by
  intro n
  induction n with
  | zero => exact fun _ _ _ h => h
  | succ n ih =>
    intro i s s' h
    rw [bbtNandCopy_of_nil h.results.1, bbtNandCopy_of_nil h.results.2]
    split
    · exact h
    · refine ih (i + 1) _ _ (h.operate _ _ fun p _ => ?_)
      rw [h.flash _ trivial]
      split
      · rfl
      · trivial

end Agree

section Remap

variable {copyLen n : Nat} {r : Int × Int}

theorem words_bbtSetBlockState (hfit : c.bmtPgs ≤ c.pages) :
    (s.bbtSetBlockState blank encode c m true).table.words = mark s.table.words m := by
  unfold State.bbtSetBlockState
  rw [(touched_storeBbt hfit _).table]
  rfl

variable (hfit : c.bmtPgs ≤ c.pages) (h : mappingBlockInRange g c block = some r)
  (hlen : 0 < copyLen) (hn : getMappingBlockIndexBbt g c (mark s.table.words m) block = n)
  (hlt : n < 0x10000)

include hfit h hlen hn hlt

theorem remapBlockBbt_of_some :
    (s.remapBlockBbt blank encode g c block m copyLen).1 = State.bbtNandCopy c n m copyLen c.pages 0
      ((s.bbtSetBlockState blank encode c m true).bbtNandErase blank c n).1 := by
  unfold State.remapBlockBbt
  rw [h]
  dsimp only
  rw [words_bbtSetBlockState hfit, hn, show ((n : Int) % 0x10000).toNat = n by omega, if_pos hlen]

variable (blank encode s) in
theorem words_remapBlockBbt :
    (s.remapBlockBbt blank encode g c block m copyLen).1.table.words = mark s.table.words m := by
  rw [remapBlockBbt_of_some hfit h hlen hn hlt,
    (State.touched_bbtNandCopy n m copyLen c.pages 0 _ (by omega)).table,
    (touched_bbtNandErase blank _ n).table, words_bbtSetBlockState hfit]

variable (s) in
theorem flash_remapBlockBbt {q i : Nat} (hidx : q ≠ s.table.bmtBlkIdx) (hne : q ≠ n)
    (hi : i < c.pages) :
    (s.remapBlockBbt blank encode g c block m copyLen).1.flash (q * c.pages + i) =
      s.flash (q * c.pages + i) := by
  have hout := page_out hne hi
  rw [remapBlockBbt_of_some hfit h hlen hn hlt,
    (State.touched_bbtNandCopy n m copyLen c.pages 0 _ (by omega)).flash _ hout,
    (touched_bbtNandErase blank _ n).flash _ hout]
  unfold State.bbtSetBlockState
  exact (touched_storeBbt hfit _).flash _ (page_out hidx hi)

variable (s) in
theorem flash_remapBlockBbt_new (hresults : s.results = []) (hpg : 0 < c.pgSize)
    (hcopy : copyLen = c.pages * c.pgSize) (hidx : m ≠ s.table.bmtBlkIdx) (hne : n ≠ m)
    {i : Nat} (hi : i < c.pages) :
    (s.remapBlockBbt blank encode g c block m copyLen).1.flash (n * c.pages + i) =
      s.flash (m * c.pages + i) := by
  have hquiet : ((s.bbtSetBlockState blank encode c m true).bbtNandErase blank c n).1.results =
      [] := by
    unfold State.bbtNandErase
    rw [results_operate, results_bbtSetBlockState hresults]
    rfl
  have hcopied := (bbtNandCopy_copies hne hpg (by omega) c.pages 0 _ (by omega)
    (by rw [hquiet]; simp [State.quiet])).2 i (Nat.zero_le i) hi
  rw [remapBlockBbt_of_some hfit h hlen hn hlt, hcopy, hcopied,
    (touched_bbtNandErase blank _ n).flash _ (page_out (Ne.symm hne) hi)]
  unfold State.bbtSetBlockState
  exact (touched_storeBbt hfit _).flash _ (page_out hidx hi)

variable (blank encode s) in
theorem Agree.remapBlockBbt {P : Nat → Prop} (hagree : Agree P s s')
    (hP : ∀ p, ¬P p →
      (s.table.bmtBlkIdx * c.pages ≤ p ∧ p < s.table.bmtBlkIdx * c.pages + c.pages) ∨
        n * c.pages ≤ p ∧ p < n * c.pages + c.pages) :
    Agree (fun _ => True) (s.remapBlockBbt blank encode g c block m copyLen).1
      (s'.remapBlockBbt blank encode g c block m copyLen).1 := by
  have hn' : getMappingBlockIndexBbt g c (mark s'.table.words m) block = n := by
    rwa [hagree.table]
  rw [remapBlockBbt_of_some hfit h hlen hn hlt, remapBlockBbt_of_some hfit h hlen hn' hlt]
  refine Agree.bbtNandCopy _ _ _ c.pages 0 _ _ ?_
  unfold State.bbtSetBlockState
  dsimp only
  rw [hagree.table]
  refine (((hagree.setWord _ _).storeBbt).bbtNandErase blank n).imp fun p _ => ?_
  by_cases hp : P p
  · exact Or.inl (Or.inl hp)
  · rcases hP p hp with hin | hin
    · exact Or.inl (Or.inr hin)
    · exact Or.inr hin

end Remap

end Flash

/-! ### What is kept -/

section Kept

variable {blank : Page} {encode : Words → Nat → Page} {g : Layout} {c : Chip} {s e block : Nat}

variable (g c s e block) in
/-- The other logical blocks of the range that are on good blocks read as before, and so does
    the block itself. -/
structure Preserved (st st' : State Page) : Prop where
  others : ∀ l, s ≤ l → l < e → l ≠ block →
    bbtBlockIsBad st.table.words (getMappingBlockIndexBbt g c st.table.words l) = false →
      st'.readBbt g c l = st.readBbt g c l
  self : st'.readBbt g c block = st.readBbt g c block

theorem readBbt_of_mapping (st : State Page) {l q : Nat}
    (hq : getMappingBlockIndexBbt g c st.table.words l = q) (i : Fin c.pages) :
    st.readBbt g c l i = st.flash (q * c.pages + i) := by
  unfold State.readBbt State.content
  rw [hq, Int.toNat_natCast]

variable (g c s e block) in
/-- The logical block is on block `m`, and will be on block `n` when that is marked. -/
structure Remapping (w : Words) (m n : Nat) : Prop where
  configured : Configured g s e
  served : Served g c s e
  start : s ≤ block
  stop : block < e
  old : place (isGood w) s e block = some m
  new : place (demote (isGood w) m) s e block = some n

namespace Remapping

variable {w : Words} {m n l q : Nat}

section

variable (h : Remapping g c s e block w m n)

include h

theorem mapping (hl : s ≤ l) (hl' : l < e) (hq : place (isGood w) s e l = some q) :
    getMappingBlockIndexBbt g c w l = q :=
  h.configured.served_iff.mp h.served w l q hl hl' hq

theorem mapping_mark (hl : s ≤ l) (hl' : l < e) (hq : place (demote (isGood w) m) s e l = some q) :
    getMappingBlockIndexBbt g c (mark w m) l = q := by
  have hle := h.configured.le
  have hm := mem_of_place h.old
  refine h.configured.served_iff.mp h.served (mark w m) l q hl hl' ?_
  rwa [place_mark hle (by omega)]

theorem lt : n < 0x10000 :=
  Nat.lt_of_lt_of_le (mem_of_place h.new).2 h.configured.le

theorem exists_range : ∃ r, mappingBlockInRange g c block = some r := by
  obtain ⟨r, hread⟩ := h.configured.exists_blockRange h.start h.stop
  obtain ⟨r, hrange, -⟩ := Option.map_eq_some_iff.mp hread
  exact ⟨r, hrange⟩

end

variable {t : Table} (h : Remapping g c s e block t.words m n) (hpages : 0 < c.pages)
  (hpg : 0 < c.pgSize) (hfit : c.bmtPgs ≤ c.pages)

include h hpages hpg hfit

theorem preserved (hspare : Spare (isGood t.words) s e block)
    (hidx : ¬(s ≤ t.bmtBlkIdx ∧ t.bmtBlkIdx < e ∧ isGood t.words t.bmtBlkIdx = true))
    (flash : Nat → Page) : Preserved g c s e block ⟨t, flash, []⟩
      (State.remapBlockBbt blank encode g c ⟨t, flash, []⟩ block m (c.pages * c.pgSize)).1 := by
  have hlen : 0 < c.pages * c.pgSize := Nat.mul_pos hpages hpg
  obtain ⟨r, hrange⟩ := h.exists_range
  have hn := h.mapping_mark h.start h.stop h.new
  have hwords := words_remapBlockBbt blank encode ⟨t, flash, []⟩ hfit hrange hlen hn h.lt
  obtain ⟨hnm, hgood⟩ := hspare.ne h.start h.old h.new
  have hused : ∀ q, s ≤ q → q < e → isGood t.words q = true → q ≠ t.bmtBlkIdx := by
    rintro q hq hq' hgood rfl
    exact hidx ⟨hq, hq', hgood⟩
  have hm := mem_of_place h.old
  refine ⟨fun l hl hl' hne hl'' => ?_, ?_⟩
  · obtain ⟨q, hq⟩ := exists_place (isGood t.words) hl hl'
    have hmap := h.mapping hl hl' hq
    have hq' := mem_of_place hq
    have hqgood : isGood t.words q = true := by
      unfold isGood
      rw [← hmap, hl'']
      rfl
    obtain ⟨hsame, hqn, -⟩ := hspare.place_eq h.start h.old h.new hl hne hq hqgood
    have hmap' := h.mapping_mark hl hl' hsame
    rw [← hwords] at hmap'
    funext i
    refine (readBbt_of_mapping _ hmap' i).trans ((?_ : _ = _).trans
      (readBbt_of_mapping ⟨t, flash, []⟩ hmap i).symm)
    exact flash_remapBlockBbt ⟨t, flash, []⟩ hfit hrange hlen hn h.lt
      (hused q hq'.1 hq'.2 hqgood) hqn i.isLt
  · have hn' := hn
    rw [← hwords] at hn'
    funext i
    refine (readBbt_of_mapping _ hn' i).trans ((?_ : _ = _).trans
      (readBbt_of_mapping ⟨t, flash, []⟩ (h.mapping h.start h.stop h.old) i).symm)
    exact flash_remapBlockBbt_new ⟨t, flash, []⟩ hfit hrange hlen hn h.lt rfl hpg rfl
      (hused m hm.1 hm.2 hgood) hnm i.isLt

/-- A block that is still read is none whose contents are erased before they are copied: the
    result would be the same whatever was in it. -/
theorem ne_of_preserved {x y : Page} (hxy : x ≠ y)
    (hkept : ∀ flash, Preserved g c s e block ⟨t, flash, []⟩
      (State.remapBlockBbt blank encode g c ⟨t, flash, []⟩ block m (c.pages * c.pgSize)).1)
    (hl : s ≤ l) (hl' : l < e) (hq : place (isGood t.words) s e l = some q)
    (hread : l = block ∨ isGood t.words q = true) : q ≠ n ∧ q ≠ t.bmtBlkIdx := by
  have hlen : 0 < c.pages * c.pgSize := Nat.mul_pos hpages hpg
  obtain ⟨r, hrange⟩ := h.exists_range
  have hn := h.mapping_mark h.start h.stop h.new
  have hmap := h.mapping hl hl' hq
  have hreads : ∀ flash, (State.remapBlockBbt blank encode g c ⟨t, flash, []⟩ block m
      (c.pages * c.pgSize)).1.readBbt g c l = (State.mk t flash []).readBbt g c l := by
    intro flash
    by_cases hlb : l = block
    · rw [hlb]
      exact (hkept flash).self
    · refine (hkept flash).others l hl hl' hlb ?_
      rw [hmap]
      exact Bool.not_eq_eq_eq_not.mp (hread.resolve_left hlb)
  refine not_or.mp fun hlost => hxy ?_
  have hagree : Agree (fun p => p ≠ q * c.pages) (State.mk t (fun _ => x) [])
      (State.mk t (Function.update (fun _ => x) (q * c.pages) y) []) :=
    ⟨rfl, ⟨rfl, rfl⟩, fun p hp => Function.update_of_ne hp y fun _ => x⟩
  have hin : ∀ p, ¬p ≠ q * c.pages →
      t.bmtBlkIdx * c.pages ≤ p ∧ p < t.bmtBlkIdx * c.pages + c.pages ∨
        n * c.pages ≤ p ∧ p < n * c.pages + c.pages := by
    intro p hp
    rw [Decidable.not_not.mp hp]
    rcases hlost with rfl | rfl
    · exact .inr ⟨Nat.le_refl _, by omega⟩
    · exact .inl ⟨Nat.le_refl _, by omega⟩
  have hafter := Agree.remapBlockBbt blank encode ⟨t, fun _ => x, []⟩ hfit hrange hlen hn h.lt
    hagree hin
  have hsame : (State.mk t (fun _ => x) []).readBbt g c l =
      (State.mk t (Function.update (fun _ => x) (q * c.pages) y) []).readBbt g c l := by
    refine (hreads _).symm.trans (Eq.trans ?_ (hreads _))
    unfold State.readBbt State.content
    funext i
    rw [hafter.table, hafter.flash _ trivial]
  have hpage := congrFun hsame ⟨0, hpages⟩
  have hx := readBbt_of_mapping ⟨t, fun _ => x, []⟩ hmap ⟨0, hpages⟩
  have hy := readBbt_of_mapping ⟨t, Function.update (fun _ => x) (q * c.pages) y, []⟩ hmap
    ⟨0, hpages⟩
  calc x = State.readBbt g c ⟨t, fun _ => x, []⟩ l ⟨0, hpages⟩ := hx.symm
    _ = Function.update (fun _ => x) (q * c.pages) y (q * c.pages) := hpage.trans hy
    _ = y := Function.update_self _ _ _

end Remapping

variable (blank encode) in
theorem preserved_iff {x y : Page} (hxy : x ≠ y) (h : Configured g s e) (hserved : Served g c s e)
    (hpages : 0 < c.pages) (hpg : 0 < c.pgSize) (hfit : c.bmtPgs ≤ c.pages) (t : Table)
    (hs : s ≤ block) (he : block < e) :
    (∀ flash, Preserved g c s e block ⟨t, flash, []⟩ (State.remapBlockBbt blank encode g c
      ⟨t, flash, []⟩ block (getMappingBlockIndexBbt g c t.words block).toNat
        (c.pages * c.pgSize)).1) ↔
      Spare (isGood t.words) s e block ∧
        ¬(s ≤ t.bmtBlkIdx ∧ t.bmtBlkIdx < e ∧ isGood t.words t.bmtBlkIdx = true) := by
  obtain ⟨m, hm⟩ := exists_place (isGood t.words) hs he
  obtain ⟨n, hn⟩ := exists_place (demote (isGood t.words) m) hs he
  have hremap : Remapping g c s e block t.words m n := ⟨h, hserved, hs, he, hm, hn⟩
  rw [hremap.mapping hs he hm, Int.toNat_natCast]
  constructor
  · intro hkept
    refine ⟨?_, ?_⟩
    · refine spare_of_ne hs hm hn (fun l q hl hl' hq hread => ?_) he
      exact (hremap.ne_of_preserved hpages hpg hfit hxy hkept hl hl' hq hread).1
    · rintro ⟨hidx, hidx', hgood⟩
      -- a good block of the range is the place of a logical block
      obtain ⟨l, hl, hl', hq⟩ := exists_of_place (isGood t.words) hidx hidx'
      exact (hremap.ne_of_preserved hpages hpg hfit hxy hkept hl hl' hq (Or.inr hgood)).2 rfl
  · rintro ⟨hspare, hidx⟩ flash
    exact hremap.preserved hpages hpg hfit hspare hidx flash

end Kept

/-! ### The first and the last block -/

def twoRangesState (bad : Nat → Bool) (flash : Nat → Nat) : State Nat :=
  ⟨⟨packed bad, 1023⟩, flash, []⟩

def twoRangesRemap (bad : Nat → Bool) (block : Nat) (flash : Nat → Nat) : State Nat :=
  (State.remapBlockBbt 0xff (fun w i => w i) twoRanges smallBbt (twoRangesState bad flash) block
    (getMappingBlockIndexBbt twoRanges smallBbt (packed bad) block).toNat (64 * 2048)).1

/-- Block 10 is bad, and takes in what was in block 15. -/
theorem preserved_twoRanges : Spare (isGood (packed fun b => b == 10)) 8 16 14 ∧
    ∀ flash, Preserved twoRanges smallBbt 8 16 14
      (twoRangesState (fun b => b == 10) flash) (twoRangesRemap (fun b => b == 10) 14 flash) := by
  have hspare : Spare (isGood (packed fun b => b == 10)) 8 16 14 := ⟨by decide, 10, 11, by decide⟩
  exact ⟨hspare, (preserved_iff 0xff (fun w i => w i) Nat.zero_ne_one ⟨by decide, by decide⟩
    served_twoRanges (by decide) (by decide) (by decide) ⟨packed fun b => b == 10, 1023⟩
      (by decide) (by decide)).mpr ⟨hspare, by decide⟩⟩

/-- All blocks are good and block 8 is marked.  Logical block 9 is on block 10 now, and reads
    what is in there. -/
theorem not_preserved_twoRanges : Configured twoRanges 8 16 ∧ Served twoRanges smallBbt 8 16 ∧
    (∀ b < 16, 8 ≤ b → isGood (packed fun _ => false) b = true) ∧
    getMappingBlockIndexBbt twoRanges smallBbt (packed fun _ => false) 9 = 9 ∧
    getMappingBlockIndexBbt twoRanges smallBbt
      (twoRangesRemap (fun _ => false) 8 fun p => p / 64).table.words 9 = 10 ∧
    (twoRangesState (fun _ => false) fun p => p / 64).readBbt twoRanges smallBbt 9
      ⟨0, by decide⟩ = 9 ∧
    (twoRangesRemap (fun _ => false) 8 fun p => p / 64).readBbt twoRanges smallBbt 9
      ⟨0, by decide⟩ = 10 ∧
    ¬Preserved twoRanges smallBbt 8 16 8 (twoRangesState (fun _ => false) fun p => p / 64)
      (twoRangesRemap (fun _ => false) 8 fun p => p / 64) := by
  have hread : (twoRangesRemap (fun _ => false) 8 fun p => p / 64).readBbt twoRanges smallBbt 9
      ⟨0, by decide⟩ = 10 := by
    decide +kernel
  refine ⟨⟨by decide, by decide⟩, served_twoRanges, by decide, by decide, by decide +kernel,
    by decide, hread, ?_⟩
  intro h
  have hsame := congrFun (h.others 9 (by decide) (by decide) (by decide) (by decide)) ⟨0, by decide⟩
  rw [hread] at hsame
  exact absurd hsame (by decide)

end Rooter.Bmt
