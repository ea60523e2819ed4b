import Rooter.MtdStep
import Mathlib.Data.List.Infix
import Mathlib.Data.List.TakeWhile

/-!
# The image on the devices

As long as the counters agree, each repetition puts the next block of the image on the next
good block of the device.  On one device they always agree.  On several devices the number
of skipped bytes is kept when a device is left, so they agree as long as no device is left
behind a bad block.  Whether one is depends on where the image ends.
-/

namespace Rooter.Mtd

open List Flash Flash.Device Loop Jffs2 PaddedBlocks

/-! ### Placing a block -/

namespace Writer

/-- The counters and the position agree on block `p` of the device that was `d`, and its
    good blocks before hold `blocks`. -/
structure InStep (d : Device) (w : Nat) (t : EraseState) (p : Nat) (blocks : List (List UInt8)) :
    Prop extends Counted d w t p where
  filled : Filled d t.fd p blocks
  le : p ≤ d.blocks
  pos : t.fd.pos = d.erasesize * p
  erasable : ∀ k < p, d.bad k = false → d.eraseFails k = false

variable {o : Options} {s : Writer} {d : Device} {w p : Nat} {t : EraseState}
  {blocks : List (List UInt8)}

namespace InStep

theorem init (d : Device) : InStep d 0 ⟨⟨d, 0, []⟩, 0, 0⟩ 0 [] where
  alike := .refl d
  counted := rfl
  erased := rfl
  clean _ := rfl
  filled := .init d 0
  le := Nat.zero_le _
  pos := rfl
  erasable k hk := absurd hk (Nat.not_lt_zero k)

theorem behind (h : InStep d w t p blocks) {j : Nat} (hbads : ∀ i < j, d.bad (p + i) = true)
    (hle : p + j ≤ max p d.blocks) : InStep d w (t.behind j) (p + j) blocks := by
  refine ⟨h.toCounted.behind hbads, h.filled.skip_bads j hbads, ?_, ?_, fun k hk hgood => ?_⟩
  · rwa [Nat.max_eq_right h.le] at hle
  · rw [EraseState.behind, Descriptor.seek, h.pos, h.alike.erasesize, Nat.mul_add]
  · rcases Nat.lt_or_ge k p with hlt | hge
    · exact h.erasable k hlt hgood
    · obtain ⟨i, rfl⟩ := Nat.exists_eq_add_of_le hge
      rw [hbads i (by omega)] at hgood
      cases hgood

theorem start_eq (h : InStep d w t p blocks) (hp : o.partOffset = 0) :
    (t.e + o.partOffset) % 2 ^ 32 = d.erasesize * p := by
  have hle : d.erasesize * p ≤ d.erasesize * d.blocks := Nat.mul_le_mul_left _ h.le
  have hlt := d.size_lt
  rw [hp, Nat.add_zero, h.erased, Nat.mod_eq_of_lt (by omega)]

theorem put (h : InStep d w t p blocks) {data : List UInt8} {fd₁ fd₂ : Descriptor} {n : Nat}
    (hbad : d.isBad (d.erasesize * p) = some false) (hlen : data.length = d.erasesize)
    (herase : t.fd.erase (d.erasesize * p) = (fd₁, true))
    (hwrite : fd₁.write data = (fd₂, some n)) (hn : data.length ≤ n) :
    InStep d (w + data.length) ⟨fd₂, t.e + d.erasesize, t.skipBadBlocks⟩ (p + 1)
      (blocks ++ [data]) := by
  obtain ⟨hfilled, hpos⟩ :=
    h.filled.put (Device.bad_of_isBad_block hbad) h.pos hlen herase hwrite hn
  have hok : d.eraseOk (d.erasesize * p) = true := by
    rw [← h.filled.alike.eraseOk, ← Descriptor.snd_erase, herase]
  refine ⟨h.toCounted.put hfilled.alike hlen rfl, hfilled, Device.lt_of_eraseOk hok, hpos,
    fun k hk hgood => ?_⟩
  rcases Nat.lt_or_eq_of_le (Nat.le_of_lt_succ hk) with hlt | rfl
  · exact h.erasable k hlt hgood
  · rw [Device.eraseOk_block (Device.lt_of_eraseOk hok)] at hok
    simpa using hok

end InStep

/-- Placing the buffer: it goes to the next good block, the program gives up, or an erase
    fails on a good block or behind the end. -/
theorem place_cases (h : InStep d s.w s.eraseState p blocks) (hn : o.noErase = false)
    (hp : o.partOffset = 0) (hoff : s.offset = 0) (hbuf : s.buf.length = d.erasesize) :
    (∃ fd, place o s = s.stop .exit fd) ∨
    (∃ t q, InStep d (s.w + s.buf.length) t q (blocks ++ [s.buf]) ∧
      place o s = .again { s with
        fd := t.fd
        e := t.e
        skipBadBlocks := t.skipBadBlocks
        w := s.w + s.buf.length
        buf := []
        buflenRaw := 0
        offset := 0
        padded := if s.buflenRaw < s.buf.length then s.padded ++ [s.r] else s.padded }) ∨
    (∃ t q, InStep d s.w t q blocks ∧ d.isBad (d.erasesize * q) = some false ∧
      d.eraseOk (d.erasesize * q) = false ∧
      place o s = resume o s { t with fd := t.fd.issue (.erase (d.erasesize * q)) }) := by
  obtain ⟨j, r, hr, hbads, hle, -, hend⟩ := h.toCounted.eraseBlocks hn hbuf
  have hj := h.behind hbads hle
  have hstart := hj.start_eq hp
  unfold place
  rw [hr]
  cases hend with
  | exit hbad => exact .inl ⟨_, rfl⟩
  | failed hbad herase =>
    rw [hstart] at herase
    obtain ⟨hok, rfl⟩ := Descriptor.erase_eq_false herase
    refine .inr (.inr ⟨s.eraseState.behind j, p + j, hj, hj.isBad hbad, ?_, rfl⟩)
    rw [← hj.filled.alike.eraseOk]
    exact hok
  | @ready fd hbad herase =>
    rw [hstart] at herase
    simp only [writeBlock, hoff, slice_zero]
    cases hwrite : fd.write s.buf with
    | mk fd₂ result =>
      cases result with
      | none => exact .inl ⟨_, rfl⟩
      | some n =>
        simp only
        split
        · exact .inl ⟨_, rfl⟩
        · next hn =>
          have hput := hj.put (hj.isBad hbad) hbuf herase hwrite (by omega)
          rw [← h.alike.erasesize] at hput
          exact .inr (.inl ⟨_, p + j + 1, hput, rfl⟩)

end Writer

/-! ### The stream of blocks -/

def Writer.pending (s : Writer) (erasesize : Nat) : List (List UInt8) :=
  blocksOf erasesize 0xff (s.buf ++ delivered s.input)

section Pending

variable {s : Writer} {erasesize : Nat}

theorem length_padBlock {buf : List UInt8} (h : buf.length ≤ erasesize) :
    (padBlock erasesize buf).length = erasesize :=
  length_rightpad_of_le h

theorem Writer.pending_eq_cons (hsize : s.fd.dev.erasesize = erasesize)
    (hbuf : s.buf.length ≤ erasesize) (hinput : Undisturbed s.input)
    (hne : (fill erasesize s.r s.buf s.input).2.1 ≠ []) :
    s.pending erasesize = s.filled.buf :: blocksOf erasesize 0xff (delivered s.filled.input) := by
  subst hsize
  unfold pending
  rw [← fill_append s.fd.dev.erasesize s.r]
  exact blocksOf_append s.fd.dev.erasesize_pos hne (length_fill_le _ _ _ _ hbuf)
    (fill_undisturbed _ _ _ _ hbuf hinput).2

theorem Writer.pending_eq_nil (hpos : 0 < erasesize)
    (hbuf : s.buf.length ≤ erasesize) (hinput : Undisturbed s.input)
    (hnil : (fill erasesize s.r s.buf s.input).2.1 = []) : s.pending erasesize = [] := by
  unfold pending
  rw [← fill_append erasesize s.r]
  rcases (fill_undisturbed erasesize s.r s.buf s.input hbuf hinput).2 with hfull | hrest
  · rw [hnil] at hfull
    exact absurd hfull (Nat.ne_of_lt hpos)
  · rw [hnil, hrest]
    exact blocksOf_nil

end Pending

/-! ### A chain of devices -/

/-- The number of blocks that the device takes: its good ones up to one that cannot be erased. -/
def room (d : Device) : Nat := (d.good.takeWhile fun k => !d.eraseFails k).length

/-- No block is bad, and all can be erased. -/
def Clean (d : Device) : Prop :=
  (∀ k, d.bad k = false) ∧ ∀ k < d.blocks, d.eraseFails k = false

/-- An image of `n` blocks ends on the first device, or that device is clean and the rest of the
    image is in the same case on the devices that follow. -/
def Fits : Nat → List Device → Prop
  | n, d :: d' :: next => n ≤ room d ∨ Clean d ∧ Fits (n - room d) (d' :: next)
  | _, _ => True

theorem fits_of_le_room {n : Nat} {d : Device} (h : n ≤ room d) (next : List Device) :
    Fits n (d :: next) := by
  cases next with
  | nil => trivial
  | cons d' next => exact .inl h

theorem Clean.alike {d e : Device} (halike : d.Alike e) : Clean e ↔ Clean d := by
  unfold Clean
  rw [halike.bad, halike.blocks, halike.eraseFails]

theorem Clean.length_good {d : Device} (h : Clean d) : d.good.length = room d := by
  have hall : ∀ k ∈ d.good, (!d.eraseFails k) = true := fun k hk => by
    rw [h.2 k (Device.mem_goodBelow.mp hk).1]
    rfl
  rw [room, takeWhile_eq_self_iff.mpr hall]

namespace Writer.InStep

variable {d : Device} {w q : Nat} {t : EraseState} {blocks : List (List UInt8)}
  (h : InStep d w t q blocks)

include h

theorem length_goodBelow : (d.goodBelow q).length = blocks.length := by
  rw [← h.filled.stored, length_map]

theorem room_eq : room d =
    blocks.length + ((d.good.drop blocks.length).takeWhile fun k => !d.eraseFails k).length := by
  have htake : d.good.take blocks.length = d.goodBelow q := by
    rw [Device.goodBelow_eq_take h.le, h.length_goodBelow, Device.good_eq_goodBelow]
  have hall : ∀ k ∈ d.good.take blocks.length, (!d.eraseFails k) = true := fun k hk => by
    obtain ⟨hlt, hgood⟩ := Device.mem_goodBelow.mp (htake ▸ hk)
    rw [h.erasable k hlt hgood]
    rfl
  have hsplit : d.good.takeWhile (fun k => !d.eraseFails k) = d.good.take blocks.length ++
      (d.good.drop blocks.length).takeWhile fun k => !d.eraseFails k := by
    rw [← takeWhile_append_of_pos hall, take_append_drop]
  rw [room, hsplit, length_append, htake, h.length_goodBelow]

/-- A device is left with as many blocks on it as it takes. -/
theorem length_eq_room (hbad : d.isBad (d.erasesize * q) = some false)
    (hok : d.eraseOk (d.erasesize * q) = false) : blocks.length = room d := by
  have hnil : (d.good.drop blocks.length).takeWhile (fun k => !d.eraseFails k) = [] := by
    rcases Nat.lt_or_eq_of_le h.le with hlt | heq
    · -- the next good block is the one that cannot be erased
      have hnext := Device.getElem?_goodBelow hlt (Device.bad_of_isBad_block hbad)
      rw [h.length_goodBelow, ← Device.good_eq_goodBelow] at hnext
      rw [Device.eraseOk_block hlt] at hok
      rw [drop_eq_getElem?_toList_append, hnext]
      simp [hok]
    · rw [← h.length_goodBelow, heq, ← Device.good_eq_goodBelow, drop_length]
      rfl
  rw [h.room_eq, hnil]
  rfl

theorem eq_blocks (hclean : Clean d) (hok : d.eraseOk (d.erasesize * q) = false) :
    q = d.blocks := by
  refine Nat.le_antisymm h.le (Nat.le_of_not_lt fun hlt => ?_)
  rw [Device.eraseOk_block hlt, hclean.2 q hlt] at hok
  cases hok

end Writer.InStep

/-- The run goes on: `target` are the blocks on the devices that were left, the blocks on
    the current one, and those to come, of which `j` are dropped. -/
structure Progress (ds : List Device) (target : List (List UInt8)) (erasesize : Nat)
    (past : List Device) (d : Device) (p : Nat) (blocks : List (List UInt8)) (j : Nat)
    (s : Writer) : Prop where
  inStep : Writer.InStep d s.w s.eraseState p blocks
  devices : ds = past ++ d :: s.next
  closed : past.length = s.closed.length
  target : goodBlocks (s.closed.map (·.dev)) ++ blocks ++ (s.pending erasesize).drop j = target
  skip : s.skip = (erasesize * j : Nat)
  offset : s.offset = 0
  buf : s.buf.length ≤ erasesize
  input : Undisturbed s.input

def Finished (ds : List Device) (target : List (List UInt8)) (r : Outcome) : Prop :=
  ∃ (past : List Device) (d : Device) (closed : List Descriptor) (fd : Descriptor) (p : Nat)
    (blocks : List (List UInt8)),
    ds = past ++ d :: r.unopened ∧ past.length = closed.length ∧ r.opened = closed ++ [fd] ∧
      Filled d fd p blocks ∧ p ≤ d.blocks ∧
      goodBlocks (closed.map (·.dev)) ++ blocks = target

theorem Finished.single {d : Device} {target : List (List UInt8)} {r : Outcome}
    (h : Finished [d] target r) :
    ∃ fd p, r.opened = [fd] ∧ Filled d fd p target ∧ p ≤ d.blocks := by
  obtain ⟨past, d', closed, fd, p, blocks, hds, hclosed, hopened, hfilled, hle, htarget⟩ := h
  obtain ⟨rfl, hd⟩ := append_eq_singleton_iff.mp hds.symm |>.resolve_right (by simp)
  rw [(cons.inj hd).1] at hfilled hle
  obtain rfl := length_eq_zero_iff.mp hclosed.symm
  exact ⟨fd, p, hopened, htarget ▸ hfilled, hle⟩

namespace Progress

variable {o : Options} {ds past : List Device} {target blocks : List (List UInt8)}
  {erasesize p j : Nat} {d : Device} {s u : Writer} {r : Outcome}

section

variable (h : Progress ds target erasesize past d p blocks j s)
  (hsizes : ∀ d ∈ ds, d.erasesize = erasesize)

include h hsizes

theorem erasesize_eq : d.erasesize = erasesize ∧ s.fd.dev.erasesize = erasesize := by
  have hd : d.erasesize = erasesize := hsizes d (by rw [h.devices]; simp)
  exact ⟨hd, h.inStep.filled.alike.erasesize.trans hd⟩

theorem finished (hnil : s.gather.2.1 = []) :
    Finished ds target ⟨.success, s.closed ++ [s.fd], s.next, s.padded⟩ ∧
      target.length ≤ (goodBlocks (s.closed.map (·.dev))).length + room d := by
  obtain ⟨hd, hsize⟩ := h.erasesize_eq hsizes
  rw [Writer.gather, hsize] at hnil
  have hpending := Writer.pending_eq_nil (hd ▸ d.erasesize_pos) h.buf h.input hnil
  have htarget := h.target
  rw [hpending, drop_nil, append_nil] at htarget
  refine ⟨⟨past, d, s.closed, s.fd, p, blocks, h.devices, h.closed, rfl, h.inStep.filled,
    h.inStep.le, htarget⟩, ?_⟩
  rw [← htarget, length_append, h.inStep.room_eq]
  omega

theorem filled_spec (hne : s.gather.2.1 ≠ []) :
    s.pending erasesize = s.filled.buf :: blocksOf erasesize 0xff (delivered s.filled.input) ∧
      s.filled.buf.length = erasesize ∧ Undisturbed s.filled.input := by
  obtain ⟨hd, hsize⟩ := h.erasesize_eq hsizes
  refine ⟨Writer.pending_eq_cons hsize h.buf h.input (hsize ▸ hne), ?_, ?_⟩
  · simp only [Writer.filled, Writer.gather, hsize]
    exact length_padBlock (length_fill_le _ _ _ _ h.buf)
  · exact (fill_undisturbed _ _ _ _ (hsize ▸ h.buf) h.input).1

end

theorem drop (h : Progress ds target erasesize past d p blocks (j + 1) s)
    (hsizes : ∀ d ∈ ds, d.erasesize = erasesize)
    (hne : s.gather.2.1 ≠ []) :
    Progress ds target erasesize past d p blocks j
      { s.filled with skip := s.filled.skip - s.filled.buf.length, buf := [], buflenRaw := 0 } := by
  obtain ⟨hpending, hlen, hinput⟩ := h.filled_spec hsizes hne
  refine ⟨h.inStep, h.devices, h.closed, ?_, ?_, h.offset, Nat.zero_le _, hinput⟩
  · have htarget := h.target
    rw [hpending] at htarget
    exact htarget
  · simp only
    change s.skip - _ = _
    rw [h.skip, Nat.mul_succ]
    omega

/-- The device `d` is left for the next one, with all that it takes and more of the image to
    come. -/
structure Left (ds : List Device) (target : List (List UInt8)) (erasesize : Nat)
    (past : List Device) (d : Device) (s u : Writer) : Prop where
  next : s.next = u.fd.dev :: u.next
  file : u.jffs2file = s.jffs2file
  replaced : u.jffs2Replaced = s.jffs2Replaced
  closed : ∃ fd, u.closed = s.closed ++ [fd] ∧ d.Alike fd.dev
  lt : (goodBlocks (s.closed.map (·.dev))).length + room d < target.length
  progress : Clean d → Progress ds target erasesize (past ++ [d]) u.fd.dev 0 [] 0 u

section Handle

variable (h : Progress ds target erasesize past d p blocks 0 s)
  (hsizes : ∀ d ∈ ds, d.erasesize = erasesize)
  (hne : s.gather.2.1 ≠ []) {q : Nat}

include h hsizes hne

theorem placed (hu : Writer.InStep d u.w u.eraseState q (blocks ++ [s.filled.buf]))
    (hclosed : u.closed = s.closed) (hnext : u.next = s.next) (hskip : u.skip = s.skip)
    (hoffset : u.offset = 0) (hbuf : u.buf = []) (hinput : u.input = s.filled.input) :
    Progress ds target erasesize past d q (blocks ++ [s.filled.buf]) 0 u := by
  obtain ⟨hpending, -, hfilled⟩ := h.filled_spec hsizes hne
  refine ⟨hu, ?_, ?_, ?_, ?_, hoffset, ?_, ?_⟩
  · rw [hnext]
    exact h.devices
  · rw [hclosed]
    exact h.closed
  · have htarget := h.target
    rw [hpending] at htarget
    simpa [Writer.pending, hclosed, hbuf, hinput] using htarget
  · rw [hskip]
    exact h.skip
  · rw [hbuf]
    exact Nat.zero_le _
  · rw [hinput]
    exact hfilled

variable (hp : o.partOffset = 0) {t : Writer.EraseState} (ht : Writer.InStep d s.w t q blocks)
  {op : Op} (hu : Writer.resume o s.filled { t with fd := t.fd.issue op } = .again u)

include hp ht hu

/-- A device without bad blocks whose blocks can all be erased is left behind its last block, and
    the counters agree on the next one. -/
theorem resumed (hclean : Clean d) (hq : q = d.blocks) :
    Progress ds target erasesize (past ++ [d]) u.fd.dev 0 [] 0 u := by
  obtain ⟨hpending, hlen, hinput⟩ := h.filled_spec hsizes hne
  obtain ⟨d', next, hnext⟩ : ∃ d' next, s.next = d' :: next := ⟨_, _, (Writer.resume_again hu).1⟩
  have hdevices := h.devices
  rw [hnext] at hdevices
  have hzero : t.skipBadBlocks = 0 := ht.clean hclean.1
  have hw : ¬ s.w < t.e := by
    rw [← ht.counted, hzero]
    exact Nat.lt_irrefl _
  rw [Writer.resume_eq_again (s := s.filled) (t := { t with fd := t.fd.issue op }) hnext hw] at hu
  cases hu
  refine ⟨?_, ?_, ?_, ?_, h.skip, h.offset, Nat.le_of_eq hlen, hinput⟩
  · rw [openAt, hp, hzero]
    exact .init d'
  · simpa [openAt] using hdevices
  · simp [h.closed, Writer.filled]
  · have htarget := h.target
    rw [hpending] at htarget
    have hstored : t.fd.dev.good.map t.fd.dev.block = blocks := by
      rw [ht.filled.alike.good, Device.good_eq_goodBelow, ← hq]
      exact ht.filled.stored
    have hkept : blocksOf erasesize 0xff (s.filled.buf ++ delivered s.filled.input)
        = s.filled.buf :: blocksOf erasesize 0xff (delivered s.filled.input) := by
      have hpos : 0 < erasesize := (h.erasesize_eq hsizes).1 ▸ d.erasesize_pos
      rw [blocksOf_append hpos (length_pos_iff.mp (hlen ▸ hpos)) (by omega)
        (.inl hlen), rightpad_of_length_eq hlen]
    simp only [Writer.pending, hkept, map_append, map_singleton, goodBlocks,
      flatMap_append, flatMap_singleton, Descriptor.issue, hstored, append_nil]
    exact htarget

theorem left (hbad : d.isBad (d.erasesize * q) = some false)
    (hok : d.eraseOk (d.erasesize * q) = false) : Left ds target erasesize past d s u := by
  obtain ⟨hnext, hfile, hreplaced, fd, hclosed, halike⟩ := Writer.resume_again hu
  refine ⟨hnext, hfile, hreplaced, ⟨fd, hclosed, ht.alike.trans halike⟩, ?_,
    fun hclean => h.resumed hsizes hne hp ht hu hclean (ht.eq_blocks hclean hok)⟩
  rw [← h.target, (h.filled_spec hsizes hne).1, length_append, length_append,
    ht.length_eq_room hbad hok]
  exact Nat.lt_add_of_pos_right (Nat.succ_pos _)

end Handle

theorem step_cases (h : Progress ds target erasesize past d p blocks j s)
    (hn : o.noErase = false) (hp : o.partOffset = 0) (hfile : s.jffs2file = none)
    (hfix : o.imageformat = .unknown ∨ s.jffs2Replaced = false)
    (hsizes : ∀ d ∈ ds, d.erasesize = erasesize) :
    (∃ fd, s.step o = s.stop .exit fd) ∨
    (s.step o = s.stop .success s.fd ∧
      Finished ds target ⟨.success, s.closed ++ [s.fd], s.next, s.padded⟩ ∧
      target.length ≤ (goodBlocks (s.closed.map (·.dev))).length + room d) ∨
    (∃ u p blocks j, s.step o = .again u ∧ u.jffs2file = none ∧
      u.jffs2Replaced = s.jffs2Replaced ∧ u.closed = s.closed ∧ u.next = s.next ∧
      Progress ds target erasesize past d p blocks j u) ∨
    (∃ u, s.step o = .again u ∧ Left ds target erasesize past d s u) := by
  by_cases hnil : s.gather.2.1 = []
  · exact .inr (.inl ⟨Writer.step_eq_stop hfix hnil, h.finished hsizes hnil⟩)
  · rw [Writer.step_eq_handle hnil]
    have hd := (h.erasesize_eq hsizes).1
    have hlen := (h.filled_spec hsizes hnil).2.1.trans hd.symm
    cases j with
    | succ j =>
      have hskip : 0 < s.filled.skip := by
        change 0 < s.skip
        rw [h.skip]
        exact Int.natCast_pos.mpr (Nat.mul_pos (hd ▸ d.erasesize_pos) (by omega))
      rw [Writer.handle_eq_drop hskip]
      exact .inr (.inr (.inl ⟨_, p, blocks, j, rfl, hfile, rfl, rfl, rfl, h.drop hsizes hnil⟩))
    | zero =>
      have hskip : s.filled.skip ≤ 0 := by
        change s.skip ≤ 0
        rw [h.skip]
        exact Int.le_refl 0
      rw [Writer.handle_eq_place (s := s.filled) hfile hskip]
      rcases Writer.place_cases (s := s.filled) h.inStep hn hp h.offset hlen with
        ⟨fd, hplace⟩ | ⟨t, q, ht, hplace⟩ | ⟨t, q, ht, hbad, hok, hplace⟩
      · exact .inl ⟨fd, hplace⟩
      · refine .inr (.inr (.inl ⟨_, q, blocks ++ [s.filled.buf], 0, hplace, hfile, rfl, rfl, rfl,
          ?_⟩))
        exact h.placed hsizes hnil ht rfl rfl rfl rfl rfl rfl
      · rw [hplace]
        cases hresume : Writer.resume o s.filled
            { t with fd := t.fd.issue (.erase (d.erasesize * q)) } with
        | leave r =>
          exact .inl (Writer.resume_leave (s := s.filled) hresume)
        | again u =>
          exact .inr (.inr (.inr ⟨u, rfl, h.left hsizes hnil hp ht hresume hbad hok⟩))

end Progress

/-! ### Whole runs -/

section Runs

variable {o : Options} {d : Device} {next : List Device} {buf : List UInt8}
  {input : List ReadResult} {r : Outcome}

/-- The run on the devices `ds`: no device was left but clean ones, and the rest of the image fits
    if the image does, or one was left that was not clean, and the image does not fit. -/
def OverChain (ds : List Device) (target : List (List UInt8)) (erasesize : Nat) (s : Writer) :
    Prop :=
  s.jffs2file = none ∧ s.jffs2Replaced = false ∧ (∀ fd ∈ s.closed, Clean fd.dev) ∧
      (∃ past d p blocks j, Progress ds target erasesize past d p blocks j s ∧
        (Fits target.length ds ↔
          Fits (target.length - (goodBlocks (s.closed.map (·.dev))).length) (d :: s.next))) ∨
    ¬ Fits target.length ds ∧ ∃ fd ∈ s.closed, ¬ Clean fd.dev

theorem Progress.Left.overChain {ds past : List Device} {target : List (List UInt8)}
    {erasesize : Nat} {s u : Writer} (h : Progress.Left ds target erasesize past d s u)
    (hfile : s.jffs2file = none) (hreplaced : s.jffs2Replaced = false)
    (hclosed : ∀ fd ∈ s.closed, Clean fd.dev)
    (hfits : Fits target.length ds ↔
      Fits (target.length - (goodBlocks (s.closed.map (·.dev))).length) (d :: s.next)) :
    OverChain ds target erasesize u := by
  obtain ⟨fd, heq, halike⟩ := h.closed
  have hlt := h.lt
  rw [h.next, Fits, or_iff_right (by omega)] at hfits
  by_cases hclean : Clean d
  · refine .inl ⟨h.file.trans hfile, h.replaced.trans hreplaced, ?_, past ++ [d], u.fd.dev, 0, [],
      0, h.progress hclean, ?_⟩
    · simp only [heq, mem_append, mem_singleton]
      rintro fd' (hmem | rfl)
      · exact hclosed fd' hmem
      · exact (Clean.alike halike).mpr hclean
    · have hlength : (goodBlocks (u.closed.map (·.dev))).length
          = (goodBlocks (s.closed.map (·.dev))).length + room d := by
        rw [← hclean.length_good, ← halike.good]
        simp [goodBlocks, heq]
      rw [hfits, hlength, ← Nat.sub_sub]
      exact and_iff_right hclean
  · refine .inr ⟨fun hall => hclean (hfits.mp hall).1, fd, ?_, mt (Clean.alike halike).mp hclean⟩
    rw [heq]
    exact mem_append_right _ mem_cons_self

/-- The image is on the devices if it fits: then, and only then, all that were left are clean. -/
def Stored (ds : List Device) (target : List (List UInt8)) (r : Outcome) : Prop :=
  (Fits target.length ds → Finished ds target r) ∧
    (Fits target.length ds ↔ ∀ fd ∈ r.opened.dropLast, Clean fd.dev)

theorem OverChain.step {ds : List Device} {target : List (List UInt8)} {erasesize : Nat}
    {s : Writer} (h : OverChain ds target erasesize s) (hn : o.noErase = false)
    (hp : o.partOffset = 0) (hsizes : ∀ d ∈ ds, d.erasesize = erasesize) :
    (s.step o).Satisfies (OverChain ds target erasesize)
      fun r => r.status = .success → Stored ds target r := by
  rcases h with ⟨hfile, hfix, hclosed, past, d, p, blocks, j, h, hfits⟩ | ⟨hfits, fd, hmem, hclean⟩
  · rcases h.step_cases hn hp hfile (.inr hfix) hsizes with
      ⟨fd, heq⟩ | ⟨heq, hfinished, hle⟩ |
      ⟨u, p', blocks', j', heq, hfile', hfix', hsame, hnext, hu⟩ | ⟨u, heq, hleft⟩
    · rw [heq]
      exact fun hsuccess => Status.noConfusion hsuccess
    · rw [heq]
      refine fun _ => ⟨fun _ => hfinished, iff_of_true (hfits.mpr ?_) ?_⟩
      · exact fits_of_le_room (by omega) _
      · rwa [dropLast_concat]
    · rw [heq]
      refine .inl ⟨hfile', hfix'.trans hfix, hsame ▸ hclosed, past, d, p', blocks', j', hu, ?_⟩
      rwa [hsame, hnext]
    · rw [heq]
      exact hleft.overChain hfile hfix hclosed hfits
  · -- whatever the run does now, the device that was left remains
    cases hstep : s.step o with
    | again u =>
      refine .inr ⟨hfits, fd, ?_, hclean⟩
      obtain ⟨-, -, -, ⟨-, -, heq, -⟩ | ⟨-, -, fd', heq⟩⟩ := Writer.step_again hstep
      · rwa [heq]
      · rw [heq]
        exact mem_append_left _ hmem
    | leave r =>
      intro hsuccess
      obtain ⟨-, fd', rfl, -⟩ := Writer.step_success hstep hsuccess
      refine ⟨fun hall => absurd hall hfits, iff_of_false hfits fun hall => hclean (hall fd ?_)⟩
      rwa [dropLast_concat]

/-- A run without a configuration file. -/
theorem stored_of_success (hn : o.noErase = false) (hp : o.partOffset = 0)
    (hsizes : ∀ d' ∈ next, d'.erasesize = d.erasesize)
    (hbuf : buf.length ≤ d.erasesize) (hinput : Undisturbed input)
    (hrun : mtdWrite o none d next buf input = some r) (hsuccess : r.status = .success) :
    Stored (d :: next) (blocksOf d.erasesize 0xff (buf ++ delivered input)) r := by
  have hsizes' : ∀ d' ∈ d :: next, d'.erasesize = d.erasesize := forall_mem_cons.mpr ⟨rfl, hsizes⟩
  refine loop_satisfies _ _ (fun s h => OverChain.step h hn hp hsizes') _ _ r (.inl ⟨rfl, rfl,
    fun fd hfd => absurd hfd not_mem_nil, [], d, 0, [], 0, ?_, .rfl⟩) hrun hsuccess
  refine ⟨?_, rfl, rfl, rfl, rfl, rfl, hbuf, hinput⟩
  rw [start, openAt, hp]
  exact .init d

theorem finished_of_success (hn : o.noErase = false) (hp : o.partOffset = 0)
    (hbuf : buf.length ≤ d.erasesize) (hinput : Undisturbed input)
    (hrun : mtdWrite o none d [] buf input = some r) (hsuccess : r.status = .success) :
    Finished [d] (blocksOf d.erasesize 0xff (buf ++ delivered input)) r :=
  (stored_of_success hn hp (fun _ hd' => absurd hd' not_mem_nil) hbuf hinput hrun hsuccess).1
    trivial

/-- **The image is stored exactly.**  A successful run on one device leaves the image,
    filled up to whole blocks, on the first good blocks, and no erase and no write that was
    issued addresses another block. -/
theorem stores_image (hn : o.noErase = false) (hp : o.partOffset = 0)
    (hbuf : buf.length ≤ d.erasesize) (hinput : Undisturbed input)
    (hrun : mtdWrite o none d [] buf input = some r) (hsuccess : r.status = .success) :
    ∃ fd, r.opened = [fd] ∧
      padded d.erasesize 0xff (buf ++ delivered input) <+: d.good.flatMap fd.dev.block ∧
      ∀ op ∈ fd.ops, ∀ k, op.Touches d.erasesize k → k ∈ d.good.take
        ((padded d.erasesize 0xff (buf ++ delivered input)).length / d.erasesize) := by
  obtain ⟨fd, p, hopened, hfilled, hle⟩ :=
    (finished_of_success hn hp hbuf hinput hrun hsuccess).single
  obtain ⟨hbelow, hprefix⟩ := hfilled.isPrefix hle
  rw [length_padded d.erasesize_pos, Nat.mul_div_cancel_left _ d.erasesize_pos,
    ← flatten_blocksOf d.erasesize_pos, ← hbelow]
  refine ⟨fd, hopened, ?_, hfilled.ops⟩
  exact hprefix.flatten

theorem stores_image_behind_bad_block :
    ∃ r fd, mtdWrite plainOptions none (smallNand 4 [0, 2] [] true) [] [1, 2]
        [.data [3], .again, .data [4, 5, 6]] = some r ∧
      r.opened = [fd] ∧
      [1, 2, 3, 4, 5, 6, 0xff, 0xff] <+: [1, 3].flatMap fd.dev.block := by
  obtain ⟨r, hrun, hsuccess⟩ :
      ∃ r ∈ mtdWrite plainOptions none (smallNand 4 [0, 2] [] true) [] [1, 2]
      [.data [3], .again, .data [4, 5, 6]],
      r.status = .success := by decide
  obtain ⟨fd, hopened, hstored, -⟩ := stores_image rfl rfl
    (by decide) (by decide) hrun hsuccess
  exact ⟨r, fd, hrun, hopened, hstored⟩

/-- **A chain of devices.**  A successful run leaves the image on the good blocks of the devices,
    taken in their order, if the image fits: every device before the one on which it ends has no
    bad block and lets all its blocks be erased.  If it does not fit, a device was left that has
    one, or at an erase that failed. -/
theorem stores_image_over_chain (hn : o.noErase = false) (hp : o.partOffset = 0)
    (hsizes : ∀ d' ∈ next, d'.erasesize = d.erasesize)
    (hbuf : buf.length ≤ d.erasesize) (hinput : Undisturbed input)
    (hrun : mtdWrite o none d next buf input = some r) (hsuccess : r.status = .success) :
    (Fits (blocksOf d.erasesize 0xff (buf ++ delivered input)).length (d :: next) →
      padded d.erasesize 0xff (buf ++ delivered input) <+: (goodBlocks r.devices).flatten) ∧
    (Fits (blocksOf d.erasesize 0xff (buf ++ delivered input)).length (d :: next) ↔
      ∀ fd ∈ r.opened.dropLast, Clean fd.dev) := by
  obtain ⟨hfinished, hclean⟩ := stored_of_success hn hp hsizes hbuf hinput hrun hsuccess
  refine ⟨fun hfits => ?_, hclean⟩
  obtain ⟨past, d', closed, fd, p, blocks, hds, hclosed, hopened, hfilled, hle, htarget⟩ :=
    hfinished hfits
  rw [← flatten_blocksOf d.erasesize_pos, ← htarget]
  refine List.IsPrefix.flatten ?_
  have hdevices : goodBlocks r.devices = goodBlocks (closed.map (·.dev)) ++
      (fd.dev.good.map fd.dev.block ++ goodBlocks r.unopened) := by
    simp [goodBlocks, Outcome.devices, hopened]
  rw [hdevices, prefix_append_right_inj, hfilled.alike.good]
  exact (hfilled.isPrefix hle).2.trans (prefix_append _ _)

theorem stores_image_over_two_devices :
    (∃ r, mtdWrite plainOptions none (smallNand 2 [] [] false) [smallNand 3 [0] [] false] []
        [.data [1, 2, 3, 4, 5, 6, 7, 8, 9]] = some r ∧
      [1, 2, 3, 4, 5, 6, 7, 8, 9, 0xff, 0xff, 0xff] <+: (goodBlocks r.devices).flatten) ∧
    ∃ r, mtdWrite plainOptions none (smallNand 3 [0] [2] true) [smallNand 4 [] [] true] []
        [.data [1, 2, 3]] = some r ∧
      [1, 2, 3, 0xff] <+: (goodBlocks r.devices).flatten := by
  constructor
  · obtain ⟨r, hrun, hsuccess⟩ :
        ∃ r ∈ mtdWrite plainOptions none (smallNand 2 [] [] false) [smallNand 3 [0] [] false] []
        [.data [1, 2, 3, 4, 5, 6, 7, 8, 9]],
        r.status = .success := by decide
    refine ⟨r, hrun, (stores_image_over_chain rfl rfl (by simp [smallNand]) (by decide)
      (by decide) hrun hsuccess).1 (.inr ⟨⟨fun k => ?_, by decide⟩, trivial⟩)⟩
    simp [smallNand]
  · obtain ⟨r, hrun, hsuccess⟩ :
        ∃ r ∈ mtdWrite plainOptions none (smallNand 3 [0] [2] true) [smallNand 4 [] [] true] []
        [.data [1, 2, 3]],
        r.status = .success := by decide
    exact ⟨r, hrun, (stores_image_over_chain rfl rfl (by simp [smallNand]) (by decide)
      (by decide) hrun hsuccess).1 (.inl (by decide))⟩

/-- The number of skipped bytes and the offset in the buffer are kept when a device is left.  Left
    behind a bad block, be it at its end or because an erase failed, the second block of the image
    is lost or doubled: memory from behind the buffer is written in its place. -/
theorem not_stores_image_over_chain :
    (∃ r, mtdWrite plainOptions none (smallNand 2 [0] [] false) [smallNand 4 [] [] false] []
        [.data [1, 2, 3, 4, 5, 6, 7, 8, 9, 10, 11, 12]] = some r ∧ r.status = .success ∧
      (goodBlocks r.devices).flatten = [1, 2, 3, 4, 0x55, 0x55, 0x55, 0x55, 9, 10, 11, 12,
        0xff, 0xff, 0xff, 0xff, 0, 0, 0, 0] ∧
      ¬ padded 4 0xff [1, 2, 3, 4, 5, 6, 7, 8, 9, 10, 11, 12] <+:
        (goodBlocks r.devices).flatten) ∧
    (∃ r, mtdWrite plainOptions none (smallNand 3 [0] [2] true) [smallNand 4 [] [] true] []
        [.data [1, 2, 3, 4, 5, 6, 7, 8, 9, 10, 11, 12]] = some r ∧ r.status = .success ∧
      ¬ padded 4 0xff [1, 2, 3, 4, 5, 6, 7, 8, 9, 10, 11, 12] <+:
        (goodBlocks r.devices).flatten) := by
  decide

end Runs

end Rooter.Mtd
