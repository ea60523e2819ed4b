import Rooter.BadBlockRepair

/-!
# Finding the table again

After a reboot `scan_bmt` looks for the table from the last block of the chip down, and
`get_bmt_index` finds its slot by the mark `BMT_MAPPED`, which the scan of the chip sets once.
When the block of the table cannot be erased or written, `upload_bmt` goes on to the slot
below, but leaves the mark where it is and clears the block of that slot, so the search for
the mark ends in front of it.  The table that was written is not accepted, and what was
remapped is lost, unless an old table is found that happens to be the same.
-/

namespace Rooter.Bmt

open List Function

open Execution (Steps)

/-! ### Pages that are read back -/

/-- What a page that can be read holds: 16-bit words, and the bytes of its spare area from
    `oob_offset` on. -/
structure Leaf where
  word : Nat → Nat
  oob : Nat → Nat

/-- A page, `none` if it cannot be read. -/
abbrev Sheet := Option Leaf

namespace Chip

def pgWords (c : Chip) : Nat := c.pgSize / 2

def bufWords (c : Chip) : Nat := c.bmtPgs * c.pgWords

end Chip

/-- `struct bbbt` from its first byte on: the signature `BMT`, the version, and the tables. -/
def bbbtWord (w : Words) : Nat → Nat
  | 0 => 0x4d42
  | 1 => 0x0254
  | i + 2 => w i

/-- The spare area with `sig` behind its first byte. -/
def sigOob : Nat → Nat
  | 1 => 0x62
  | 2 => 0x6d
  | 3 => 0x74
  | _ => 0xff

/-- The pages of `write_bmt`; the signature is in the spare area of the first. -/
def encodeBmt (c : Chip) (w : Words) (i : Nat) : Sheet :=
  some ⟨fun j => bbbtWord w (i * c.pgWords + j), if i = 0 then sigOob else fun _ => 0xff⟩

section Read

variable (c : Chip) (flash : Nat → Sheet)

def readWord (block i : Nat) : Nat :=
  match flash (block * c.pages + i / c.pgWords) with
  | some leaf => leaf.word (i % c.pgWords)
  | none => 0

def readFdm (block i : Nat) : Nat :=
  match flash (block * c.pages) with
  | some leaf => leaf.oob i
  | none => 0

/-- `read_bmt` has no error, and `is_valid_bmt` accepts what it has read. -/
def HoldsBmt (block : Nat) : Prop :=
  (∀ i < c.bmtPgs, (flash (block * c.pages + i)).isSome) ∧
    readWord c flash block 0 = 0x4d42 ∧ readWord c flash block 1 = 0x0254 ∧
    readFdm c flash block 1 = 0x62 ∧ readFdm c flash block 2 = 0x6d ∧
    readFdm c flash block 3 = 0x74

instance (block : Nat) : Decidable (HoldsBmt c flash block) :=
  inferInstanceAs (Decidable (_ ∧ _))

/-- The tables after `read_bmt`; what lies behind the buffer is not touched. -/
def loadBmt (behind : Words) (block : Nat) : Words :=
  fun i => if i + 2 < c.bufWords then readWord c flash block (i + 2) else behind i

def getBmtIndexLoop (w : Words) : Nat → Nat → Nat
  | 0, _ => 0
  | fuel + 1, i =>
      if w (c.blockAt i) = 0 then 0
      else if w (c.mappedAt i) = bmtMapped then i
      else getBmtIndexLoop w fuel (i + 1)

/-- `get_bmt_index`; a slot number has 16 bits. -/
def getBmtIndex (w : Words) : Nat := getBmtIndexLoop c w 0x10000 0

/-- `scan_bmt`; the number in front is `block + 1`. -/
def scanBmtFrom (behind : Words) : Nat → Option Table
  | 0 => none
  | block + 1 =>
      if block < c.poolLba then none
      else if HoldsBmt c flash block then
        let w := loadBmt c flash behind block
        if getBmtIndex c w = 0 then none else some ⟨w, getBmtIndex c w⟩
      else scanBmtFrom behind block

def scanBmt (behind : Words) : Option Table := scanBmtFrom c flash behind c.totalBlks

end Read

/-! ### The search for the mark -/

variable {c : Chip} {blank : Sheet}

section Index

variable {w : Words}

theorem getBmtIndexLoop_spec : ∀ fuel i, getBmtIndexLoop c w fuel i ≠ 0 →
    getBmtIndexLoop c w fuel i < i + fuel ∧
      (∀ k, i ≤ k → k < getBmtIndexLoop c w fuel i → w (c.mappedAt k) ≠ bmtMapped) ∧
      (∀ k, i ≤ k → k ≤ getBmtIndexLoop c w fuel i → w (c.blockAt k) ≠ 0) ∧
      w (c.mappedAt (getBmtIndexLoop c w fuel i)) = bmtMapped := by
  intro fuel
  induction fuel with
  | zero => exact fun _ h => absurd rfl h
  | succ fuel ih =>
    intro i h
    rw [getBmtIndexLoop] at h ⊢
    split at h
    · exact absurd rfl h
    next hblock =>
      rw [if_neg hblock]
      split at h
      next hmark =>
        rw [if_pos hmark]
        refine ⟨by omega, fun k hk hk' => by omega, fun k hk hk' => ?_, hmark⟩
        rwa [Nat.le_antisymm hk' hk]
      next hmark =>
        rw [if_neg hmark]
        obtain ⟨hlt, hbelow, hpos, htop⟩ := ih (i + 1) h
        refine ⟨by omega, fun k hk hk' => ?_, fun k hk hk' => ?_, htop⟩
        · rcases Nat.eq_or_lt_of_le hk with rfl | hk
          · exact hmark
          · exact hbelow k hk hk'
        · rcases Nat.eq_or_lt_of_le hk with rfl | hk
          · exact hblock
          · exact hpos k hk hk'

theorem getBmtIndexLoop_of_mark {top : Nat} (hblock : ∀ k ≤ top, w (c.blockAt k) ≠ 0)
    (hmark : ∀ k < top, w (c.mappedAt k) ≠ bmtMapped) (htop : w (c.mappedAt top) = bmtMapped) :
    ∀ fuel i, i ≤ top → top < i + fuel → getBmtIndexLoop c w fuel i = top := by
  intro fuel
  induction fuel with
  | zero => intro i hi hlt; omega
  | succ fuel ih =>
    intro i hi hlt
    rw [getBmtIndexLoop, if_neg (hblock i hi)]
    rcases Nat.lt_or_eq_of_le hi with hi | rfl
    · rw [if_neg (hmark i hi)]
      exact ih (i + 1) hi (by omega)
    · exact if_pos htop

end Index

/-! ### The scan -/

/-- The block that `scan_bmt` takes: no block above it reads as a table. -/
structure Topmost (c : Chip) (flash : Nat → Sheet) (b : Nat) : Prop where
  le : c.poolLba ≤ b
  lt : b < c.totalBlks
  holds : HoldsBmt c flash b
  above : ∀ b', b < b' → b' < c.totalBlks → ¬ HoldsBmt c flash b'

/-- What is read from the block has the `bb_tbl` of `t` and its mark in slot `n`, whatever lies
    behind the buffer. -/
def Recovers (c : Chip) (flash : Nat → Sheet) (t : Table) (n b : Nat) : Prop :=
  ∀ behind, getBmtIndex c (loadBmt c flash behind b) = n ∧
    ∀ l < c.tableSize, loadBmt c flash behind b l = t.words l

/-- The scan after a reboot finds the table of `s`, in slot `n`, whatever lies behind the buffer. -/
def Survives (c : Chip) (s : State Sheet) (n : Nat) : Prop :=
  ∀ behind, ∃ t, scanBmt c s.flash behind = some t ∧ t.bmtBlkIdx = n ∧
    ∀ l < c.tableSize, t.words l = s.table.words l

section Scan

variable {flash flash' : Nat → Sheet} {behind : Words} {b q : Nat}

theorem scanBmtFrom_some {t : Table} : ∀ m, m ≤ c.totalBlks →
    (∀ b', m ≤ b' → b' < c.totalBlks → ¬ HoldsBmt c flash b') →
    scanBmtFrom c flash behind m = some t →
      ∃ b, Topmost c flash b ∧ t.bmtBlkIdx ≠ 0 ∧
        t = ⟨loadBmt c flash behind b, getBmtIndex c (loadBmt c flash behind b)⟩ := by
  intro m
  induction m with
  | zero =>
    intro _ _ h
    cases h
  | succ m ih =>
    intro hm habove h
    rw [scanBmtFrom] at h
    split at h
    · cases h
    next hlba =>
      split at h
      next hholds =>
        dsimp only at h
        split at h
        · cases h
        next hidx =>
          cases h
          exact ⟨m, ⟨Nat.le_of_not_lt hlba, hm, hholds, habove⟩, hidx, rfl⟩
      next hno =>
        refine ih (Nat.le_of_succ_le hm) (fun b' hb hlt => ?_) h
        rcases Nat.eq_or_lt_of_le hb with rfl | hb
        · exact hno
        · exact habove b' hb hlt

theorem scanBmtFrom_of_topmost (h : Topmost c flash b) : ∀ m, b < m → m ≤ c.totalBlks →
    scanBmtFrom c flash behind m =
      if getBmtIndex c (loadBmt c flash behind b) = 0 then none
      else some ⟨loadBmt c flash behind b, getBmtIndex c (loadBmt c flash behind b)⟩ := by
  intro m
  induction m with
  | zero => intro hm; omega
  | succ m ih =>
    intro hm hle
    have hlba := h.le
    rw [scanBmtFrom, if_neg (by omega)]
    rcases Nat.lt_or_eq_of_le (Nat.le_of_lt_succ hm) with hlt | rfl
    · rw [if_neg (h.above m hlt hle)]
      exact ih hlt (by omega)
    · rw [if_pos h.holds]

theorem Topmost.unique {b' : Nat} (h : Topmost c flash b) (h' : Topmost c flash b') : b = b' := by
  rcases Nat.lt_trichotomy b b' with hlt | heq | hlt
  · exact absurd h'.holds (h.above b' hlt h'.lt)
  · exact heq
  · exact absurd h.holds (h'.above b hlt h.lt)

/-- What the scan finds is read from the topmost table. -/
theorem survives_iff_topmost {s : State Sheet} {n : Nat} :
    Survives c s n ↔ n ≠ 0 ∧ ∃ b, Topmost c s.flash b ∧ Recovers c s.flash s.table n b := by
  constructor
  · intro h
    obtain ⟨t, hscan, hidx, -⟩ := h fun _ => 0
    obtain ⟨b, htop, hne, -⟩ := scanBmtFrom_some _ (Nat.le_refl _) (fun b' hb hlt => by omega) hscan
    refine ⟨hidx ▸ hne, b, htop, fun behind => ?_⟩
    obtain ⟨t, hscan, hidx, hwords⟩ := h behind
    obtain ⟨b', htop', -, rfl⟩ := scanBmtFrom_some _ (Nat.le_refl _)
      (fun b' hb hlt => by omega) hscan
    rw [htop.unique htop']
    exact ⟨hidx, hwords⟩
  · rintro ⟨hne, b, htop, hrec⟩ behind
    obtain ⟨hidx, hwords⟩ := hrec behind
    refine ⟨_, (scanBmtFrom_of_topmost htop _ htop.lt (Nat.le_refl _)).trans (if_neg ?_), hidx,
      hwords⟩
    rwa [hidx]

/-! #### Blocks with the same pages -/

section Congr

variable (h : ∀ i < c.bmtPgs, flash' (b * c.pages + i) = flash (b * c.pages + i))

include h

theorem readWord_congr {i : Nat} (hi : i < c.bufWords) :
    readWord c flash' b i = readWord c flash b i := by
  unfold readWord
  rw [h _ (Nat.div_lt_of_lt_mul (by rw [Nat.mul_comm]; exact hi))]

theorem holdsBmt_congr (hbuf : 1 < c.bufWords) : HoldsBmt c flash' b ↔ HoldsBmt c flash b := by
  have hpgs : 0 < c.bmtPgs := Nat.pos_of_ne_zero fun hzero => by
    unfold Chip.bufWords at hbuf
    rw [hzero] at hbuf
    omega
  have hfdm : ∀ i, readFdm c flash' b i = readFdm c flash b i := by
    intro i
    have hfirst := h 0 hpgs
    rw [Nat.add_zero] at hfirst
    unfold readFdm
    rw [hfirst]
  unfold HoldsBmt
  rw [readWord_congr h (by omega), readWord_congr h hbuf, hfdm, hfdm, hfdm]
  refine and_congr_left fun _ => forall₂_congr fun i hi => ?_
  rw [h i hi]

theorem loadBmt_congr : loadBmt c flash' behind b = loadBmt c flash behind b := by
  funext i
  unfold loadBmt
  split
  next hi => exact readWord_congr h hi
  · rfl

theorem recovers_congr {t : Table} {n : Nat} :
    Recovers c flash' t n b ↔ Recovers c flash t n b := by
  unfold Recovers
  simp only [loadBmt_congr h]

end Congr

/-! #### The block that was written -/

/-- The table with the words `w` is in block `q`. -/
def Written (c : Chip) (flash : Nat → Sheet) (w : Words) (q : Nat) : Prop :=
  ∀ i < c.bmtPgs, flash (q * c.pages + i) = encodeBmt c w i

variable {w : Words}

theorem Written.readWord (h : Written c flash w q) {i : Nat} (hi : i < c.bufWords) :
    readWord c flash q i = bbbtWord w i := by
  have hlt : i / c.pgWords < c.bmtPgs := Nat.div_lt_of_lt_mul (by
    rw [Nat.mul_comm]
    exact hi)
  unfold Bmt.readWord
  rw [h _ hlt]
  show bbbtWord w (i / c.pgWords * c.pgWords + i % c.pgWords) = bbbtWord w i
  rw [Nat.div_add_mod']

theorem Written.holds (h : Written c flash w q) (hbuf : 1 < c.bufWords) : HoldsBmt c flash q := by
  have hpgs : 0 < c.bmtPgs := Nat.pos_of_ne_zero fun hzero => by
    unfold Chip.bufWords at hbuf
    rw [hzero] at hbuf
    omega
  have hfdm : ∀ i, readFdm c flash q i = sigOob i := by
    intro i
    unfold readFdm
    have hfirst := h 0 hpgs
    rw [Nat.add_zero] at hfirst
    rw [hfirst]
    rfl
  refine ⟨?_, ?_, ?_, hfdm 1, hfdm 2, hfdm 3⟩
  · intro i hi
    rw [h i hi]
    rfl
  · exact h.readWord (by omega)
  · exact h.readWord hbuf

theorem Written.loadBmt (h : Written c flash w q) (behind : Words) {i : Nat}
    (hi : i + 2 < c.bufWords) : loadBmt c flash behind q i = w i :=
  (if_pos hi).trans (h.readWord hi)

/-- The mark of slot `n` is read if it is in the buffer and there. -/
theorem Written.mark_of_index {n : Nat} (h : Written c flash w q) (hne : n ≠ 0)
    (hindex : getBmtIndex c (Bmt.loadBmt c flash (fun _ => 0) q) = n) :
    w (c.mappedAt n) = bmtMapped ∧ c.mappedAt n + 2 < c.bufWords := by
  have hmark := (getBmtIndexLoop_spec (c := c) (w := Bmt.loadBmt c flash (fun _ => 0) q) 0x10000 0
    (by rw [← hindex] at hne; exact hne)).2.2.2
  rw [show getBmtIndexLoop c (Bmt.loadBmt c flash (fun _ => 0) q) 0x10000 0 = n from hindex]
    at hmark
  by_cases hstored : c.mappedAt n + 2 < c.bufWords
  · rw [h.loadBmt _ hstored] at hmark
    exact ⟨hmark, hstored⟩
  · rw [show Bmt.loadBmt c flash (fun _ => 0) q (c.mappedAt n) = 0 from if_neg hstored] at hmark
    exact absurd hmark (by decide)

theorem Written.recovers {t : Table} {n : Nat} (h : Written c flash t.words q)
    (hbuf : 2 + 2 * c.tableSize ≤ c.bufWords) (hn : n < 0x10000)
    (hblock : ∀ k ≤ n, t.block c k ≠ 0) (hbelow : ∀ k < n, t.mapped c k ≠ bmtMapped)
    (hmark : t.mapped c n = bmtMapped) (hstored : c.mappedAt n + 2 < c.bufWords) :
    Recovers c flash t n q := by
  intro behind
  have hload : ∀ i ≤ c.mappedAt n, Bmt.loadBmt c flash behind q i = t.words i :=
    fun i hi => h.loadBmt behind (by omega)
  refine ⟨getBmtIndexLoop_of_mark ?_ ?_ ?_ _ 0 (Nat.zero_le _) (by omega),
    fun l hl => h.loadBmt behind (by omega)⟩
  · intro k hk
    rw [hload _ (by unfold Chip.blockAt Chip.mappedAt; omega)]
    exact hblock k hk
  · intro k hk
    rw [hload _ (by unfold Chip.mappedAt; omega)]
    exact hbelow k hk
  · rw [hload _ (Nat.le_refl _)]
    exact hmark

end Scan

/-! ### What storing leaves in the blocks -/

section Store

variable {s s' : State Sheet} {b n n' : Nat}

/-- What could be read before the table is stored: the flash, and what failures leave in it. -/
def Older (s : State Sheet) (flash : Nat → Sheet) : Prop :=
  flash = s.flash ∨ some flash ∈ s.results

theorem older_uploadBmt (hfit : c.bmtPgs ≤ c.pages)
    (h : s.uploadBmt blank (encodeBmt c) c n = (s', some n')) (hb : b ≠ s'.table.block c n') :
    ∃ flash, Older s flash ∧
      ∀ i < c.bmtPgs, s'.flash (b * c.pages + i) = flash (b * c.pages + i) := by
  refine uploadBmt_induction (motive := fun _ s s' r => ∀ n', r = some n' →
    b ≠ s'.table.block c n' → ∃ flash, Older s flash ∧
      ∀ i < c.bmtPgs, s'.flash (b * c.pages + i) = flash (b * c.pages + i)) ?_ ?_ ?_
    n s s' (some n') h n' rfl hb
  · intro _ _ _ hr
    cases hr
  · intro n s s' _ hput n' hr hb
    cases hr
    rw [hput.table] at hb
    refine ⟨_, .inl rfl, fun i hi => hput.outside _ ?_⟩
    rw [Nat.max_eq_left hfit]
    exact page_out hb (by omega)
  · intro n s s₁ s' r _ hfailed ih n' hr hb
    obtain ⟨flash, holder | hmem, hflash⟩ := ih n' hr hb
    · by_cases hq : b = s.table.block c n
      · -- the block that was given up
        obtain ⟨left, hmem, hleft⟩ := hfailed.left hfit
        refine ⟨left, .inr hmem, fun i hi => ?_⟩
        rw [hflash i hi, holder, hq]
        exact hleft i hi
      · refine ⟨_, .inl rfl, fun i hi => ?_⟩
        rw [hflash i hi, holder]
        refine hfailed.outside _ ?_
        rw [Nat.max_eq_left hfit]
        exact page_out hq (by omega)
    · exact ⟨flash, .inr (hfailed.results.subset hmem), hflash⟩

theorem written_uploadBmt (h : s.uploadBmt blank (encodeBmt c) c n = (s', some n')) :
    Written c s'.flash s'.table.words (s'.table.block c n') := by
  refine uploadBmt_induction (motive := fun _ _ s' r => ∀ n', r = some n' →
    Written c s'.flash s'.table.words (s'.table.block c n')) ?_ ?_ ?_ n s s' (some n') h n' rfl
  · intro _ _ _ hr
    cases hr
  · intro n s s' _ hput n' hr
    cases hr
    rw [hput.table]
    exact hput.written
  · intro _ _ _ _ _ _ _ ih
    exact ih

/-- Either the first attempt succeeds, and no other block changes, or the slot is given up. -/
theorem uploadBmt_first (h : s.uploadBmt blank (encodeBmt c) c (n + 1) = (s', some n')) :
    (n' = n ∧ (∀ r ∈ s.results.take 2, r = none) ∧ Put (encodeBmt c) c (s.table.block c n) s s') ∨
      n' < n ∧ ∃ r ∈ s.results.take 2, r ≠ none := by
  refine uploadBmt_induction (motive := fun m s s' r => ∀ n', r = some n' →
    n' + 1 = m ∧ (∀ r ∈ s.results.take 2, r = none) ∧
      Put (encodeBmt c) c (s.table.block c n') s s' ∨
      n' + 1 < m ∧ ∃ r ∈ s.results.take 2, r ≠ none) ?_ ?_ ?_
    (n + 1) s s' (some n') h n' rfl |>.imp ?_ ?_
  · intro _ _ _ hr
    cases hr
  · intro n s s' _ hput n' hr
    cases hr
    exact .inl ⟨rfl, hput.succeeded, hput⟩
  · intro n s s₁ s' r _ hfailed ih n' hr
    refine .inr ⟨?_, hfailed.failed⟩
    rcases ih n' hr with ⟨heq, -⟩ | ⟨hlt, -⟩
    · omega
    · omega
  · rintro ⟨heq, hsucc, hput⟩
    obtain rfl := Nat.succ.inj heq
    exact ⟨rfl, hsucc, hput⟩
  · rintro ⟨hlt, hfailed⟩
    exact ⟨Nat.lt_of_succ_lt_succ hlt, hfailed⟩

end Store

/-! ### The tables along a run -/

section Run

variable {inRange : Nat → Bool} {s s' : State Sheet} {t : Table}

/-- No mark is below the slot of the table, and the slots up to it have blocks of the pool. -/
structure Pooled (c : Chip) (t : Table) : Prop where
  idx_lt : t.bmtBlkIdx < 0x10000
  below : ∀ k < t.bmtBlkIdx, t.mapped c k ≠ bmtMapped
  pos : ∀ k ≤ t.bmtBlkIdx, t.block c k ≠ 0
  le : ∀ k ≤ t.bmtBlkIdx, c.poolLba ≤ t.block c k
  lt : ∀ k ≤ t.bmtBlkIdx, t.block c k < c.totalBlks

/-- Where a run begins: with a table from the scan of the chip, or with one that `scan_bmt` has
    found, whose slots name blocks of the pool. -/
def Started (c : Chip) (t : Table) : Prop :=
  (∃ buf, scanBadBlocks c buf = some t) ∨
    (∃ flash behind, scanBmt c flash behind = some t) ∧
      ∀ k ≤ t.bmtBlkIdx, c.poolLba ≤ t.block c k ∧ t.block c k < c.totalBlks

theorem scanBadBlocks_lt_total {buf : Words} (h : scanBadBlocks c buf = some t) :
    ∀ k ≤ t.bmtBlkIdx, t.block c k < c.totalBlks := by
  obtain ⟨w, w', n, -, hroom, hscan, rfl⟩ := exists_scanPool h
  obtain ⟨block, hpool⟩ := pool_scanPool c.totalBlks 0 (w (c.poolLba - 1) + 1) w
    (pool_nil (c := c) (by omega))
  rw [hscan] at hpool
  intro k hk
  have hlt := hpool.lt_block k (Nat.lt_succ_of_le hk)
  have hle := hpool.le_total
  have hblock : Table.block c ⟨update w' (c.mappedAt n) bmtMapped, n⟩ k =
      w' (c.blockAt k) :=
    update_of_ne (mappedAt_ne_blockAt n k).symm _ _
  rw [hblock]
  exact Nat.lt_of_lt_of_le hlt hle

theorem Started.pooled (h : Started c t) : Pooled c t := by
  rcases h with ⟨buf, hscan⟩ | ⟨⟨flash, behind, hscan⟩, hpool⟩
  · obtain ⟨pba, h⟩ := exists_scanned hscan
    have hidx := h.idx_lt
    have hpos := h.pos
    have hlba := h.poolLba_le
    refine ⟨by omega, fun k hk => ?_, fun k hk => ?_, fun k hk => ?_, scanBadBlocks_lt_total hscan⟩
    · rw [h.free k hk]
      decide
    · exact Nat.ne_of_gt (Nat.lt_of_lt_of_le hpos (h.le_block k hk))
    · exact Nat.le_trans hlba (h.le_block k hk)
  · obtain ⟨b, -, hne, rfl⟩ := scanBmtFrom_some _ (Nat.le_refl _) (fun b' hb hlt => by omega) hscan
    obtain ⟨hlt, hbelow, hblock, -⟩ := getBmtIndexLoop_spec 0x10000 0 hne
    exact ⟨Nat.lt_of_lt_of_eq hlt (Nat.zero_add _), fun k hk => hbelow k (Nat.zero_le k) hk,
      fun k hk => hblock k (Nat.zero_le k) hk, fun k hk => (hpool k hk).1,
      fun k hk => (hpool k hk).2⟩

theorem Pooled.mono {t' : Table} (h : Pooled c t) (hidx : t'.bmtBlkIdx ≤ t.bmtBlkIdx)
    (hblock : ∀ k ≤ t'.bmtBlkIdx, t'.block c k = t.block c k)
    (hmark : ∀ k, t'.mapped c k = bmtMapped → t.mapped c k = bmtMapped) : Pooled c t' where
  idx_lt := Nat.lt_of_le_of_lt hidx h.idx_lt
  below k hk hmapped := h.below k (Nat.lt_of_lt_of_le hk hidx) (hmark k hmapped)
  pos k hk := hblock k hk ▸ h.pos k (Nat.le_trans hk hidx)
  le k hk := hblock k hk ▸ h.le k (Nat.le_trans hk hidx)
  lt k hk := hblock k hk ▸ h.lt k (Nat.le_trans hk hidx)

theorem Pooled.upload (h : Pooled c s.table)
    (hidx : (s.upload blank (encodeBmt c) c).table.bmtBlkIdx ≠ 0xffff) :
    Pooled c (s.upload blank (encodeBmt c) c).table := by
  obtain ⟨s', n, hstored, heq⟩ := exists_stored_of_upload hidx
  rw [heq]
  exact h.mono (Nat.le_of_lt_succ hstored.lt) hstored.block
    fun k hk => (hstored.mapped k).symm.trans hk

theorem Pooled.setWord (h : Pooled c s.table) {l : Nat} (hl : l < c.tableSize) (v : Nat) :
    Pooled c (s.setWord l v).table := by
  refine h.mono (Nat.le_refl _) (fun k _ => ?_) fun k hk => ?_
  · exact update_of_ne (ne_blockAt_of_lt hl k).symm _ _
  · exact (update_of_ne (ne_mappedAt_of_lt hl k).symm _ _).symm.trans hk

theorem Pooled.take (h : Pooled c t) {k block : Nat} (hblock : block < c.tableSize) :
    Pooled c (t.take c k block) := by
  refine h.mono (Nat.le_refl _) (fun i _ => block_take hblock i) fun i hi => ?_
  by_cases hik : i = k
  · rw [hik, mapped_take_self hblock] at hi
    exact absurd hi (by decide)
  · rwa [mapped_take_of_ne hblock hik] at hi

theorem Pooled.release (h : Pooled c t) (used slots : List Nat) (n : Nat) :
    Pooled c { t with words := (freeUnused c used slots (t.words, n)).1 } := by
  refine h.mono (Nat.le_refl _) (fun k _ => ?_) fun k hk => ?_
  · exact freeUnused_of_ne _ (fun i => (mappedAt_ne_blockAt i k).symm) _ _ _
  · rcases freeUnused_mapped (c := c) used k slots t.words n with heq | ⟨-, heq⟩
    · exact heq.symm.trans hk
    · exact absurd (heq.symm.trans hk) (by decide)

/-- A write to `bb_tbl` stays inside it, and `upload_bmt` does not report a failure. -/
def Stays (blank : Sheet) (c : Chip) (inRange : Nat → Bool) (s : State Sheet) (a : Repair) : Prop :=
  (match a with
    | .remap block _ _ => block < c.tableSize
    | .unmap block => block < c.tableSize
    | .repair block => block % 0x10000 < c.tableSize
    | _ => True) ∧
  (s.change blank (encodeBmt c) c inRange a).table.bmtBlkIdx ≠ 0xffff

theorem Pooled.change (h : Pooled c s.table) {a : Repair} (hok : Stays blank c inRange s a) :
    Pooled c (s.change blank (encodeBmt c) c inRange a).table := by
  obtain ⟨hin, hidx⟩ := hok
  cases a with
  | store => exact h.upload hidx
  | remap block mappedBlock copyLen =>
    unfold State.change at hidx ⊢
    dsimp only at hidx ⊢
    rcases remapBlockV2_cases blank (encodeBmt c) c s block mappedBlock copyLen with
      heq | ⟨k, s₁, htaken, -, heq⟩
    · rw [heq]
      exact h
    · rw [heq] at hidx ⊢
      refine Pooled.upload ?_ hidx
      rw [htaken.table]
      exact h.take hin
  | unmap block => exact (h.setWord hin block).upload hidx
  | repair block =>
    unfold State.change at hidx ⊢
    dsimp only at hidx ⊢
    rw [mtkBmtDebugRepair_table] at hidx ⊢
    exact (h.setWord hin _).upload hidx
  | debug val =>
    unfold State.change State.mtkBmtDebugV2 at hidx ⊢
    dsimp only at hidx ⊢
    split
    next hval =>
      rw [if_pos hval] at hidx
      have hfree := h.release (getMappingMask c s.table) (range (s.table.bmtBlkIdx + 1)) 0
      split
      · exact h
      next w n heq =>
        rw [heq] at hidx hfree
        exact Pooled.upload hfree hidx
    · exact h

end Run

/-! ### After a reboot -/

section Reboot

variable {s s' : State Sheet} {n : Nat}

/-- The slot with the mark is not slot 0.  Either the table is in it, its mark is stored and no
    block above reads as a table, or the topmost block that does is a copy. -/
def Findable (c : Chip) (s : State Sheet) : Prop :=
  let k := s.table.bmtBlkIdx
  0 < k ∧
    ((s.table.mapped c k = bmtMapped ∧ c.mappedAt k + 2 < c.bufWords ∧
        ∀ b, s.table.block c k < b → b < c.totalBlks → ¬ HoldsBmt c s.flash b) ∨
      ∃ b, s.table.block c k < b ∧ Topmost c s.flash b ∧ Recovers c s.flash s.table k b)

/-- The first attempt succeeds.  The scan takes the table that was written, or one above it. -/
theorem survives_iff_of_put (hbuf : 2 + 2 * c.tableSize ≤ c.bufWords) (hfit : c.bmtPgs ≤ c.pages)
    (h : Pooled c s.table)
    (hput : Put (encodeBmt c) c (s.table.block c s.table.bmtBlkIdx) s s') :
    Survives c s' s.table.bmtBlkIdx ↔ Findable c s := by
  have hle := h.le _ (Nat.le_refl _)
  have hlt := h.lt _ (Nat.le_refl _)
  have hwritten : Written c s'.flash s.table.words (s.table.block c s.table.bmtBlkIdx) :=
    hput.written
  unfold Findable
  dsimp only
  generalize s.table.block c s.table.bmtBlkIdx = q at *
  have hsame : ∀ b, q < b → ∀ i < c.bmtPgs,
      s'.flash (b * c.pages + i) = s.flash (b * c.pages + i) := by
    intro b hb i hi
    refine hput.outside _ ?_
    rw [Nat.max_eq_left hfit]
    exact page_out (Nat.ne_of_gt hb) (by omega)
  have hholds : ∀ b, q < b → (HoldsBmt c s'.flash b ↔ HoldsBmt c s.flash b) :=
    fun b hb => holdsBmt_congr (hsame b hb) (by omega)
  have hq := hwritten.holds (by omega)
  rw [survives_iff_topmost, hput.table, ← Nat.pos_iff_ne_zero]
  refine and_congr_right fun hpos => ⟨?_, ?_⟩
  · rintro ⟨b, htop, hrec⟩
    rcases Nat.lt_trichotomy b q with hb | rfl | hb
    · exact absurd hq (htop.above q hb hlt)
    · obtain ⟨hmark, hstored⟩ := hwritten.mark_of_index (Nat.ne_of_gt hpos) (hrec _).1
      exact .inl ⟨hmark, hstored, fun b' hb hlt => (hholds b' hb).not.mp (htop.above b' hb hlt)⟩
    · refine .inr ⟨b, hb, ⟨htop.le, htop.lt, (hholds b hb).mp htop.holds, fun b' hb' hlt => ?_⟩,
        (recovers_congr (hsame b hb)).mp hrec⟩
      exact (hholds b' (Nat.lt_trans hb hb')).not.mp (htop.above b' hb' hlt)
  · rintro (⟨hmark, hstored, habove⟩ | ⟨b, hb, htop, hrec⟩)
    · refine ⟨q, ⟨hle, hlt, hq, fun b' hb hlt => (hholds b' hb).not.mpr (habove b' hb hlt)⟩, ?_⟩
      exact hwritten.recovers hbuf h.idx_lt h.pos h.below hmark hstored
    · refine ⟨b, ⟨htop.le, htop.lt, (hholds b hb).mpr htop.holds, fun b' hb' hlt => ?_⟩,
        (recovers_congr (hsame b hb)).mpr hrec⟩
      exact (hholds b' (Nat.lt_trans hb hb')).not.mpr (htop.above b' hb' hlt)

/-- No older table that can be read has the same `bb_tbl` and its mark in a slot that the table
    might retreat to. -/
def NoCopy (c : Chip) (s : State Sheet) : Prop :=
  ∀ flash, Older s flash → ∀ b < c.totalBlks, HoldsBmt c flash b →
    ∀ k, 0 < k → k < s.table.bmtBlkIdx → ¬ Recovers c flash s.table k b

/-- A slot was given up.  The mark is not where the table was written, so nothing is found but a
    copy from before. -/
theorem not_survives_of_retreat (hbuf : 2 + 2 * c.tableSize ≤ c.bufWords)
    (hfit : c.bmtPgs ≤ c.pages) (h : Pooled c s.table)
    (hup : s.uploadBmt blank (encodeBmt c) c (s.table.bmtBlkIdx + 1) = (s', some n))
    (hn : n < s.table.bmtBlkIdx) (hcopy : NoCopy c s) : ¬ Survives c s' n := by
  have hstored := stored_uploadBmt _ _ _ _ hup
  rw [survives_iff_topmost]
  rintro ⟨hne, b, htop, hrec⟩
  by_cases hb : b = s'.table.block c n
  · rw [hb] at hrec
    obtain ⟨hmark, -⟩ := (written_uploadBmt hup).mark_of_index hne (hrec _).1
    exact h.below n hn ((hstored.mapped n).symm.trans hmark)
  · obtain ⟨flash, holder, hsame⟩ := older_uploadBmt hfit hup hb
    refine hcopy flash holder b htop.lt ((holdsBmt_congr hsame (by omega)).mp htop.holds) n
      (Nat.pos_of_ne_zero hne) hn fun behind => ?_
    obtain ⟨hindex, hwords⟩ := (recovers_congr hsame).mp hrec behind
    exact ⟨hindex, fun l hl => (hwords l hl).trans (hstored.words l hl)⟩

end Reboot

/-- **When the table survives a reboot.**  The state is reached from a scan, or from a table that
    was found, by any operations, with failures anywhere.  Storing the table survives exactly if
    the first attempt succeeds and the table can be found where it then is. -/
theorem survives_iff (inRange : Nat → Bool) {t : Table} {flash : Nat → Sheet}
    {results : List (Option (Nat → Sheet))} {s s' : State Sheet} {n : Nat}
    (hbuf : 2 + 2 * c.tableSize ≤ c.bufWords) (hfit : c.bmtPgs ≤ c.pages) (hstart : Started c t)
    (hrun : Steps (fun s a => some (s.change blank (encodeBmt c) c inRange a))
      (Stays blank c inRange) ⟨t, flash, results⟩ s)
    (hup : s.uploadBmt blank (encodeBmt c) c (s.table.bmtBlkIdx + 1) = (s', some n))
    (hcopy : NoCopy c s) :
    Survives c s' n ↔ (∀ r ∈ s.results.take 2, r = none) ∧ Findable c s := by
  have h : Pooled c s.table := by
    refine @Steps.invariant _ _ _ _ _ _ (fun s => Pooled c s.table) hrun hstart.pooled ?_
    rintro s a _ hs hok ⟨⟩
    exact hs.change hok
  rcases uploadBmt_first hup with ⟨rfl, hsucc, hput⟩ | ⟨hlt, r, hmem, hne⟩
  · rw [survives_iff_of_put hbuf hfit h hput, and_iff_right hsucc]
  · exact iff_of_false (not_survives_of_retreat hbuf hfit h hup hlt hcopy)
      fun hall => hne (hall.1 r hmem)

def blankState (t : Table) (results : List (Option (Nat → Sheet))) : State Sheet :=
  ⟨t, fun _ => none, results⟩

def sheetChange : State Sheet → Repair → State Sheet :=
  State.change none (encodeBmt smallChip) smallChip fun _ => true

/-- Block 1 is remapped, and the table is stored once more. -/
theorem survives_smallChip : smallChip.initV2 80 = some smallChip ∧ ∃ t s s',
    scanBadBlocks smallChip (clearBmtTbl smallChip fun _ => 0xffff) = some t ∧
      s = sheetChange (blankState t []) (.remap 1 1 0) ∧ s.table.words 1 = 21 ∧
      s.uploadBmt none (encodeBmt smallChip) smallChip 79 = (s', some 78) ∧
      Survives smallChip s' 78 := by
  obtain ⟨t, hscan, s, hs, hidx, hword, hmark, hblock, hresults, hup, hcopy⟩ :
      ∃ t ∈ scanBadBlocks smallChip (clearBmtTbl smallChip fun _ => 0xffff),
      ∃ s ∈ [sheetChange (blankState t []) (.remap 1 1 0)],
          s.table.bmtBlkIdx = 78 ∧ s.table.words 1 = 21 ∧ s.table.mapped smallChip 78 = bmtMapped ∧
          s.table.block smallChip 78 = 99 ∧ s.results = [] ∧
          (s.uploadBmt none (encodeBmt smallChip) smallChip 79).2 = some 78 ∧
          ∀ b < 100, HoldsBmt smallChip s.flash b →
            getBmtIndex smallChip (loadBmt smallChip s.flash (fun _ => 0) b) = 78 := by
    decide +kernel
  rw [mem_singleton] at hs
  have hup' : s.uploadBmt none (encodeBmt smallChip) smallChip 79 =
      ((s.uploadBmt none (encodeBmt smallChip) smallChip 79).1, some 78) := by
    rw [← hup]
  refine ⟨rfl, t, s, _, hscan, hs, hword, hup', ?_⟩
  refine (survives_iff (fun _ => true) (by decide) (by decide) (.inl ⟨_, hscan⟩)
    (Relation.ReflTransGen.single ⟨.remap 1 1 0, ⟨by decide, ?_⟩, congrArg some hs.symm⟩)
    (by rw [hidx]; exact hup') ?_).mpr ⟨?_, ?_, .inl ⟨?_, ?_, ?_⟩⟩
  · show (sheetChange (blankState t []) (.remap 1 1 0)).table.bmtBlkIdx ≠ 0xffff
    rw [← hs, hidx]
    decide
  · rintro flash (rfl | hmem) b hb hholds k - hk hrec
    · have hk' := (hrec fun _ => 0).1
      rw [hcopy b hb hholds] at hk'
      omega
    · rw [hresults] at hmem
      exact absurd hmem not_mem_nil
  · rw [hresults]
    exact fun _ hr => absurd hr not_mem_nil
  · omega
  · rw [hidx]
    exact hmark
  · rw [hidx]
    decide
  · intro b hb hlt
    rw [hidx, hblock] at hb
    exact absurd hlt (Nat.not_lt.mpr hb)

def uploadUnreadable (t : Table) : State Sheet × Option Nat :=
  (blankState t [some fun _ => none]).uploadBmt none (encodeBmt smallChip) smallChip 79

/-- The table is stored; when block 1 is remapped, its block cannot be erased and keeps what
    it holds. -/
def remapStale (t : Table) : State Sheet :=
  let s := (blankState t []).upload none (encodeBmt smallChip) smallChip
  ({ s with results := [none, some s.flash] }.remapBlockV2 none (encodeBmt smallChip)
    smallChip 1 1 0).1

/-- In both cases the table goes to the slot below.  After a reboot no table is found in the
    first, and the old one, without the block that was remapped, in the second. -/
theorem not_survives_smallChip : smallChip.initV2 80 = some smallChip ∧ ∃ t,
    scanBadBlocks smallChip (clearBmtTbl smallChip fun _ => 0xffff) = some t ∧
      (uploadUnreadable t).2 = some 77 ∧
      (scanBmt smallChip (uploadUnreadable t).1.flash fun _ => 0).isNone ∧
      (remapStale t).table.bmtBlkIdx = 77 ∧ (remapStale t).table.words 1 = 21 ∧
      ∃ t', scanBmt smallChip (remapStale t).flash (fun _ => 0) = some t' ∧
        t'.bmtBlkIdx = 78 ∧ t'.words 1 = 1 := by
  refine ⟨rfl, ?_⟩
  decide +kernel

end Rooter.Bmt
