import Rooter.MtdImage
import Mathlib.Data.List.GetD

/-!
# The configuration in the image

With `-j` the block of the image that begins with the end marker, and as many behind it as
are needed, give way to the blocks of the configuration.  On a device without bad blocks a
successful run leaves exactly this, provided that the configuration finds room on the
device: `mtd_replace_jffs2` does not notice when it does not.
-/

namespace Rooter.Mtd

open List Flash Flash.Device Loop Jffs2 PaddedBlocks

/-! ### What is to be expected -/

section Expected

variable (o : Options) (erasesize : Nat) (image : List (List UInt8))

/-- The block lies at or behind the offset of `-s` and begins with the end marker. -/
def isConfigStart (i : Nat) : Bool :=
  o.jffs2SkipBytes ≤ (erasesize * i : Nat) ∧ (image.getD i []).take 4 = eofMarker

def configStart : Option Nat := (range image.length).find? (isConfigStart o erasesize image)

/-- The numbers found in the blocks before block `k`, from the offset of `-s` on. -/
def numbersBefore : Nat → Option Numbers
  | 0 => some ⟨0, 0⟩
  | k + 1 => do
      let last ← numbersBefore k
      if o.jffs2SkipBytes ≤ (erasesize * k : Nat) then
        parseJffs2data o.bigEndian (image.getD k []) o.behind last
      else some last

/-- The image with the configuration from block `k` on. -/
def withConfig (k : Nat) (config : List (List UInt8)) : List (List UInt8) :=
  image.take k ++ config ++ image.drop (k + config.length)

end Expected

def content (d : Device) : List (List UInt8) := (range d.blocks).map d.block

def overwritten (d : Device) (blocks : List (List UInt8)) : List (List UInt8) :=
  blocks ++ (content d).drop blocks.length

/-! ### Putting the configuration on the device -/

section Put

variable {d : Device} {fd : Descriptor} {p : Nat} {blocks : List (List UInt8)}

theorem isBad_of_no_bad (hgood : ∀ k, d.bad k = false) (hlt : p < d.blocks) :
    d.isBad (d.erasesize * p) = some false := by
  have hin : d.erasesize * p < d.size := Nat.mul_lt_mul_of_pos_left hlt d.erasesize_pos
  rw [Device.isBad, if_pos hin, hgood]
  split
  · rfl
  · rfl

theorem filled_putBlock (h : Filled d fd p blocks) (hpos : fd.pos = d.erasesize * p)
    (hgood : ∀ k, d.bad k = false) (hlt : p < d.blocks) (herase : d.eraseFails p = false)
    (hwrite : d.writeFails p = false) {block : List UInt8} (hlen : block.length = d.erasesize) :
    ∃ fd', putBlock fd (d.erasesize * p) block = .ok (fd', d.erasesize * (p + 1)) ∧
      Filled d fd' (p + 1) (blocks ++ [block]) ∧ fd'.pos = d.erasesize * (p + 1) := by
  have hin : d.erasesize * p < d.size := Nat.mul_lt_mul_of_pos_left hlt d.erasesize_pos
  have hskip : skipBad (fd.dev.blocks + 1) fd (d.erasesize * p) = .ok (fd, d.erasesize * p) := by
    rw [skipBad, h.alike.isBad, isBad_of_no_bad hgood hlt]
  have hmod : d.erasesize * p % 2 ^ 32 = d.erasesize * p := by
    have hlt := d.size_lt
    rw [Device.size] at hin
    exact Nat.mod_eq_of_lt (by omega)
  have hok : (fd.erase (d.erasesize * p)).2 = true := by
    rw [fd.snd_erase, h.alike.eraseOk, Device.eraseOk_block hlt, herase]
    rfl
  have hwritten : ((fd.erase (d.erasesize * p)).1.write block).2 = some d.erasesize := by
    rw [Descriptor.snd_write, (h.alike.trans (fd.alike_erase _)).writeLength,
      Descriptor.pos_erase, hpos, hlen, Device.writeLength_block hlt hwrite]
  refine ⟨((fd.erase (d.erasesize * p)).1.write block).1, ?_, ?_⟩
  · simp only [putBlock, hskip, hmod, h.alike.erasesize, Nat.mul_succ]
  · exact h.put (hgood p) hpos hlen (Prod.ext rfl hok) (Prod.ext rfl hwritten)
      (by omega)

theorem filled_putBlocks (hgood : ∀ k, d.bad k = false) (config : List (List UInt8)) :
    ∀ {fd : Descriptor} {p : Nat} {blocks : List (List UInt8)}, Filled d fd p blocks →
      fd.pos = d.erasesize * p → p + config.length ≤ d.blocks →
      (∀ j < config.length, d.eraseFails (p + j) = false ∧ d.writeFails (p + j) = false) →
      (∀ block ∈ config, block.length = d.erasesize) →
      ∃ fd', putBlocks fd (d.erasesize * p) config
          = .ok (fd', d.erasesize * (p + config.length)) ∧
        Filled d fd' (p + config.length) (blocks ++ config) ∧
        fd'.pos = d.erasesize * (p + config.length) := by
  induction config with
  | nil =>
    intro fd p blocks h hpos _ _ _
    exact ⟨fd, rfl, by simpa using h, hpos⟩
  | cons block config ih =>
    intro fd p blocks h hpos hle hhealthy hlen
    rw [length_cons] at hle
    obtain ⟨herase, hwrite⟩ := hhealthy 0 (Nat.succ_pos _)
    obtain ⟨fd₁, hput, h₁, hpos₁⟩ :=
      filled_putBlock h hpos hgood (by omega) herase hwrite (hlen block mem_cons_self)
    obtain ⟨fd', hputs, h', hpos'⟩ := ih h₁ hpos₁ (by omega)
      fun j hj => by
        have hnext := hhealthy (j + 1) (Nat.succ_lt_succ hj)
        rwa [← Nat.add_assoc, Nat.add_right_comm] at hnext
      fun b hb => hlen b (mem_cons_of_mem _ hb)
    have hcount : p + (block :: config).length = p + 1 + config.length := by
      rw [length_cons]
      omega
    rw [hcount]
    refine ⟨fd', ?_, ?_, hpos'⟩
    · rw [putBlocks, hput]
      exact hputs
    · rwa [append_assoc] at h'

end Put

/-! ### Runs -/

section Runs

variable (o : Options) (file : ConfigFile) (d : Device) (image : List (List UInt8))

/-- The run before the end marker: the blocks of the image up to block `p` are stored. -/
structure Before (p : Nat) (s : Writer) : Prop where
  inStep : Writer.InStep d s.w s.eraseState p (image.take p)
  next : s.next = []
  closed : s.closed = []
  file : s.jffs2file = some file
  skip : s.skip = 0
  offset : s.offset = 0
  buf : s.buf.length ≤ d.erasesize
  input : Undisturbed s.input
  pending : s.pending d.erasesize = image.drop p
  le : p ≤ image.length
  noStart : ∀ i < p, isConfigStart o d.erasesize image i = false
  last : numbersBefore o d.erasesize image p = some s.last

/-- The configuration that belongs at block `k`. -/
def IsConfig (k : Nat) (config : List (List UInt8)) : Prop :=
  configStart o d.erasesize image = some k ∧
    ∃ last, numbersBefore o d.erasesize image k = some last ∧
      configBlocks d.erasesize o.bigEndian file last = some config

/-- The device takes the configuration: there is room, and no erase and no write fails. -/
def Takes (k : Nat) (config : List (List UInt8)) : Prop :=
  k + config.length ≤ d.blocks ∧
    ∀ j < config.length, d.eraseFails (k + j) = false ∧ d.writeFails (k + j) = false

structure After (k : Nat) (config : List (List UInt8)) (s : Writer) : Prop where
  alike : d.Alike s.fd.dev
  isConfig : IsConfig o file d image k config
  next : s.next = []
  closed : s.closed = []
  file : s.jffs2file = none
  progress : Takes d k config → ∃ p blocks j,
    Progress [d] (withConfig image k config) d.erasesize [] d p blocks j s

def ConfigStored (r : Outcome) : Prop :=
  ∃ fd, r.opened = [fd] ∧ d.Alike fd.dev ∧
    ((configStart o d.erasesize image = none ∧ content fd.dev = overwritten d image) ∨
      ∃ k config, IsConfig o file d image k config ∧
        (Takes d k config → content fd.dev = overwritten d (withConfig image k config)))

/-- The run goes on, or it has ended and a success is what it should be. -/
def ConfigNext (next : Next Writer Outcome) : Prop :=
  next.Satisfies
    (fun s => (∃ p, Before o file d image p s) ∨ ∃ k config, After o file d image k config s)
    (fun r => r.status = .success → ConfigStored o file d image r)

variable {o file d image} {p : Nat} {s : Writer}

theorem configNext_stop {status : Status} (fd : Descriptor) (h : status ≠ .success) :
    ConfigNext o file d image (s.stop status fd) :=
  fun hsuccess => absurd hsuccess h

theorem content_of_filled {fd : Descriptor} {blocks : List (List UInt8)} (h : Filled d fd p blocks)
    (hgood : ∀ k, d.bad k = false) (hle : p ≤ d.blocks) :
    content fd.dev = overwritten d blocks := by
  rw [content, h.alike.blocks]
  exact h.content_eq hgood hle

theorem After.step {k : Nat} {config : List (List UInt8)} (h : After o file d image k config s)
    (hformat : o.imageformat = .unknown) (hn : o.noErase = false) (hp : o.partOffset = 0)
    (hgood : ∀ k, d.bad k = false) : ConfigNext o file d image (s.step o) := by
  have hsizes : ∀ d' ∈ [d], d'.erasesize = d.erasesize := fun d' hd' => by
    rw [mem_singleton.mp hd']
  cases hstep : s.step o with
  | again u =>
    obtain ⟨-, -, hfile, ⟨-, hnext, hclosed, halike⟩ | ⟨-, hnext, -⟩⟩ := Writer.step_again hstep
    · refine .inr ⟨k, config, ⟨h.alike.trans halike, h.isConfig, hnext.trans h.next,
        hclosed.trans h.closed, hfile.elim (·.trans h.file) id, fun htakes => ?_⟩⟩
      obtain ⟨p, blocks, j, hprogress⟩ := h.progress htakes
      rcases hprogress.step_cases hn hp h.file (.inl hformat) hsizes with
        ⟨fd, heq⟩ | ⟨heq, -⟩ | ⟨u', p', blocks', j', heq, -, -, -, -, hu⟩ | ⟨u', heq, hleft⟩
      · rw [heq] at hstep
        cases hstep
      · rw [heq] at hstep
        cases hstep
      · rw [heq] at hstep
        cases hstep
        exact ⟨p', blocks', j', hu⟩
      · cases h.next.symm.trans hleft.next
    · cases h.next.symm.trans hnext
  | leave r =>
    intro hsuccess
    obtain ⟨hnil, _, rfl, hfd⟩ := Writer.step_success hstep hsuccess
    rw [hfd (.inl hformat)]
    refine ⟨s.fd, ?_, h.alike, .inr ⟨k, config, h.isConfig, fun htakes => ?_⟩⟩
    · rw [h.closed, nil_append]
    · obtain ⟨p, blocks, j, hprogress⟩ := h.progress htakes
      obtain ⟨fd, p', hopened, hfilled, hle⟩ := (hprogress.finished hsizes hnil).1.single
      rw [h.closed] at hopened
      cases hopened
      exact content_of_filled hfilled hgood hle

namespace Before

variable (h : Before o file d image p s)

include h

theorem getD_eq (hne : s.gather.2.1 ≠ []) :
    p < image.length ∧ image.getD p [] = s.filled.buf ∧ s.filled.buf.length = d.erasesize ∧
      image.drop (p + 1) = blocksOf d.erasesize 0xff (delivered s.filled.input) ∧
      Undisturbed s.filled.input := by
  have hsize : s.fd.dev.erasesize = d.erasesize := h.inStep.alike.erasesize
  rw [Writer.gather, hsize] at hne
  have hpending := Writer.pending_eq_cons hsize h.buf h.input hne
  rw [h.pending] at hpending
  have hlt : p < image.length := by
    refine Nat.lt_of_not_le fun hle => ?_
    rw [drop_eq_nil_of_le hle] at hpending
    cases hpending
  rw [drop_eq_getElem_cons hlt] at hpending
  obtain ⟨hhead, htail⟩ := cons.inj hpending
  refine ⟨hlt, ?_, ?_, htail, ?_⟩
  · rw [getD_eq_getElem _ _ hlt]
    exact hhead
  · simp only [Writer.filled, Writer.gather, hsize]
    exact length_padBlock (length_fill_le _ _ _ _ h.buf)
  · simp only [Writer.filled, Writer.gather, hsize]
    exact (fill_undisturbed _ _ _ _ h.buf h.input).1

variable (hgood : ∀ k, d.bad k = false)

include hgood

theorem placed (last : Numbers) (hn : o.noErase = false) (hp : o.partOffset = 0)
    (hne : s.gather.2.1 ≠ [])
    (hstart : isConfigStart o d.erasesize image p = false)
    (hlast : numbersBefore o d.erasesize image (p + 1) = some last) :
    ConfigNext o file d image (Writer.place o { s.filled with last := last }) := by
  obtain ⟨hlt, hget, hlen, hdrop, hinput⟩ := h.getD_eq hne
  have htake : image.take p ++ [s.filled.buf] = image.take (p + 1) := by
    rw [← hget, getD_eq_getElem _ _ hlt, take_append_getElem]
  rcases Writer.place_cases (s := { s.filled with last := last }) h.inStep hn hp h.offset hlen with
    ⟨fd, heq⟩ | ⟨t, q, ht, heq⟩ | ⟨t, q, -, -, -, heq⟩
  · rw [heq]
    exact configNext_stop fd Status.noConfusion
  · rw [heq]
    have hq : q = p + 1 := by
      have hlength := ht.filled.length_eq hgood
      rw [← hlength]
      rw [htake, length_take_of_le hlt]
    rw [htake, hq] at ht
    refine .inl ⟨p + 1, ⟨ht, h.next, h.closed, h.file, h.skip, rfl, Nat.zero_le _, hinput,
      ?_, hlt, ?_, hlast⟩⟩
    · rw [hdrop]
      rfl
    · intro i hi
      rcases Nat.lt_or_eq_of_le (Nat.le_of_lt_succ hi) with hi | rfl
      · exact h.noStart i hi
      · exact hstart
  · rw [heq, Writer.resume_eq_stop (s := { s.filled with last := last }) h.next]
    exact configNext_stop _ Status.noConfusion

theorem w_eq : s.w = d.erasesize * p := by
  have hcounted : s.w + s.skipBadBlocks = s.e := h.inStep.counted
  have hzero : s.skipBadBlocks = 0 := h.inStep.clean hgood
  have herased : s.e = d.erasesize * p := h.inStep.erased
  rw [← herased, ← hcounted, hzero, Nat.add_zero]

theorem replaced (hne : s.gather.2.1 ≠ []) (hstart : isConfigStart o d.erasesize image p = true)
    (hmarker : s.filled.buf.take 4 = eofMarker) :
    ConfigNext o file d image (Writer.replaceJffs2 o s.filled file) := by
  obtain ⟨hlt, hget, hlen, hdrop, hinput⟩ := h.getD_eq hne
  have hsize : s.fd.dev.erasesize = d.erasesize := h.inStep.alike.erasesize
  have hfour : 4 ≤ d.erasesize := by
    have hlength := congrArg length hmarker
    rw [length_take, hlen] at hlength
    change min 4 d.erasesize = 4 at hlength
    omega
  cases hstep : Writer.replaceJffs2 o s.filled file with
  | leave r => exact fun hsuccess => absurd hsuccess (Writer.replaceJffs2_leave hstep)
  | again u =>
    obtain ⟨config, fd, mtdofs, hconfig, hput, rfl⟩ := Writer.replaceJffs2_again hstep
    change configBlocks s.fd.dev.erasesize _ _ _ = _ at hconfig
    rw [hsize] at hconfig
    have hfirst : configStart o d.erasesize image = some p := by
      rw [configStart, find?_range_eq_some]
      exact ⟨hstart, mem_range.mpr hlt, fun i hi => by rw [h.noStart i hi]; rfl⟩
    refine .inr ⟨p, config, ⟨h.inStep.alike.trans (alike_putBlocks _ hput),
      ⟨hfirst, s.last, h.last, hconfig⟩, h.next, h.closed, rfl,
      fun htakes => ?_⟩⟩
    have herased : s.e = d.erasesize * p := h.inStep.erased
    have hcounted : s.w + s.skipBadBlocks = s.e := h.inStep.counted
    obtain ⟨fd', hputs, hfilled, hpos⟩ := filled_putBlocks hgood config h.inStep.filled h.inStep.pos
      htakes.1 htakes.2 (length_of_mem_configBlocks d.erasesize_pos hconfig)
    change putBlocks s.fd s.e config = _ at hput
    rw [herased] at hput
    cases hput.symm.trans hputs
    obtain ⟨n, hcount⟩ := Nat.exists_eq_succ_of_ne_zero
      (mt length_eq_zero_iff.mp (configBlocks_ne_nil hfour hconfig))
    have hmul : d.erasesize * (p + config.length)
        = d.erasesize * p + (d.erasesize * n + d.erasesize) := by
      rw [hcount, Nat.mul_add, Nat.mul_succ]
    have herasable : ∀ k < p + config.length, d.bad k = false → d.eraseFails k = false := by
      intro k hk hbad
      rcases Nat.lt_or_ge k p with hlt | hge
      · exact h.inStep.erasable k hlt hbad
      · obtain ⟨i, rfl⟩ := Nat.exists_eq_add_of_le hge
        exact (htakes.2 i (by omega)).1
    refine ⟨p + config.length, image.take p ++ config, n,
      ⟨⟨⟨hfilled.alike, ?_, rfl, h.inStep.clean⟩, hfilled, htakes.1, hpos, herasable⟩,
        ?_, ?_, ?_, ?_, rfl, Nat.zero_le _, hinput⟩⟩
    · change s.w + (d.erasesize * (p + config.length) - s.e) + s.skipBadBlocks = _
      change _ = d.erasesize * (p + config.length)
      omega
    · change [d] = [] ++ d :: s.next
      rw [h.next]
      rfl
    · change 0 = s.closed.length
      rw [h.closed]
      rfl
    · have hrest : (image.drop (p + 1)).drop n = image.drop (p + config.length) := by
        rw [drop_drop]
        congr 1
        omega
      rw [withConfig, ← hrest, hdrop]
      change goodBlocks (s.closed.map (·.dev)) ++ _ ++ _ = _
      rw [h.closed]
      rfl
    · change (d.erasesize * (p + config.length) - s.e : Nat) - (s.filled.buf.length : Int)
        = _
      omega

theorem step (hformat : o.imageformat = .unknown) (hn : o.noErase = false) (hp : o.partOffset = 0) :
    ConfigNext o file d image (s.step o) := by
  by_cases hnil : s.gather.2.1 = []
  · rw [Writer.step_eq_stop (.inl hformat) hnil]
    have hsize : s.fd.dev.erasesize = d.erasesize := h.inStep.alike.erasesize
    rw [Writer.gather, hsize] at hnil
    have hend := Writer.pending_eq_nil d.erasesize_pos h.buf h.input hnil
    rw [h.pending, drop_eq_nil_iff] at hend
    have hfilled := h.inStep.filled
    rw [take_of_length_le hend] at hfilled
    intro _
    refine ⟨s.fd, ?_, hfilled.alike, .inl ⟨?_, content_of_filled hfilled hgood h.inStep.le⟩⟩
    · rw [h.closed, nil_append]
    · rw [configStart, find?_range_eq_none]
      intro i hi
      rw [h.noStart i (by omega)]
      rfl
  · rw [Writer.step_eq_handle hnil]
    obtain ⟨hlt, hget, hlen, hdrop, hinput⟩ := h.getD_eq hnil
    have hw : (s.filled.w : Int) = (d.erasesize * p : Nat) := by
      change (s.w : Int) = _
      rw [h.w_eq hgood]
    rw [Writer.handle_of_file (s := s.filled) h.file (Int.le_of_eq h.skip), hw]
    split
    · next hoffset =>
      split
      · next hmarker =>
        refine h.replaced hgood hnil ?_ hmarker
        rw [isConfigStart, hget]
        exact decide_eq_true ⟨hoffset, hmarker⟩
      · next hmarker =>
        split
        · exact configNext_stop _ Status.noConfusion
        · next last hparse =>
          refine h.placed hgood last hn hp hnil ?_ ?_
          · rw [isConfigStart, hget]
            exact decide_eq_false fun hboth => hmarker hboth.2
          · simp only [numbersBefore, h.last, if_pos hoffset, hget]
            exact hparse
    · next hoffset =>
      refine h.placed hgood s.last hn hp hnil ?_ ?_
      · exact decide_eq_false fun hboth => hoffset hboth.1
      · simp only [numbersBefore, h.last, Option.bind_eq_bind, Option.bind_some, if_neg hoffset]

end Before

/-- **The configuration in the image.**  After a successful run on a device without bad blocks the
    device holds the image, with the blocks of the configuration from the first block on that lies
    at or behind the offset of `-s` and begins with the end marker, if and only if the configuration
    has room on the device.  Without such a block it holds the image.  The erases and writes of the
    configuration, whose results are not looked at, must not fail. -/
theorem config_stored_iff {buf : List UInt8} {input : List ReadResult} {r : Outcome}
    (hformat : o.imageformat = .unknown) (hgood : ∀ k, d.bad k = false) (hn : o.noErase = false)
    (hp : o.partOffset = 0) (hbuf : buf.length ≤ d.erasesize) (hinput : Undisturbed input)
    (himage : image = blocksOf d.erasesize 0xff (buf ++ delivered input))
    (hrun : mtdWrite o (some file) d [] buf input = some r) (hsuccess : r.status = .success) :
    ∃ fd, r.opened = [fd] ∧
      (configStart o d.erasesize image = none → content fd.dev = overwritten d image) ∧
      ∀ k, configStart o d.erasesize image = some k →
        ∃ last config, numbersBefore o d.erasesize image k = some last ∧
          configBlocks d.erasesize o.bigEndian file last = some config ∧
          ((∀ j < config.length, d.eraseFails (k + j) = false ∧ d.writeFails (k + j) = false) →
            (content fd.dev = overwritten d (withConfig image k config) ↔
              k + config.length ≤ d.blocks)) := by
  have hstored : ConfigStored o file d image r := by
    refine loop_satisfies
      (fun s => (∃ p, Before o file d image p s) ∨ ∃ k config, After o file d image k config s)
      (fun r => r.status = .success → ConfigStored o file d image r)
      (fun s hs => ?_) _ _ r (.inl ⟨0, ?_⟩) hrun hsuccess
    · rcases hs with ⟨p, hbefore⟩ | ⟨k, config, hafter⟩
      · exact hbefore.step hgood hformat hn hp
      · exact hafter.step hformat hn hp hgood
    · refine ⟨?_, rfl, rfl, rfl, rfl, rfl, hbuf, hinput, himage.symm, Nat.zero_le _,
        fun i hi => absurd hi (by omega), rfl⟩
      rw [start, openAt, hp]
      exact .init d
  obtain ⟨fd, hopened, halike,
    ⟨hnone, hcontent⟩ | ⟨k, config, ⟨hk, last, hlast, hconfig⟩, htakes⟩⟩ := hstored
  · refine ⟨fd, hopened, fun _ => hcontent, fun k hk => ?_⟩
    cases hnone.symm.trans hk
  · refine ⟨fd, hopened, fun hnone => ?_, fun k' hk' => ?_⟩
    · cases hnone.symm.trans hk
    · cases hk.symm.trans hk'
      refine ⟨last, config, hlast, hconfig, fun hhealthy => ⟨fun heq => ?_, fun hle => ?_⟩⟩
      · have hlt : k < image.length := by
          rw [configStart, find?_range_eq_some] at hk
          exact mem_range.mp hk.2.1
        have hlength := congrArg length heq
        simp only [content, overwritten, withConfig, halike.blocks, length_map,
          length_range, length_append, length_take] at hlength
        omega
      · exact htakes ⟨hle, hhealthy⟩

end Runs

/-! ### A small device -/

/-- A NOR device of fewer than eight blocks of 256 bytes that holds zeros. -/
def smallNor (blocks : Fin 8) : Device where
  erasesize := 256
  blocks := blocks
  nand := false
  bad _ := false
  pastFails := false
  eraseFails _ := false
  writeFails _ := false
  mem _ := 0
  erasesize_pos := by decide
  size_lt := by omega
  bad_spec _ h := absurd h Bool.false_ne_true

def sampleFile : ConfigFile := ⟨true, true, [0x61], 0x81a4, 3, 0, 0, 0, [1, 2, 3]⟩

theorem length_sampleConfig :
    ∃ config, configBlocks 256 false sampleFile ⟨0, 0⟩ = some config ∧ config.length = 3 := by
  obtain ⟨config, hconfig, hlength⟩ : ∃ config ∈ configBlocks 256 false sampleFile ⟨0, 0⟩,
      config.length = 3 := by decide +kernel
  exact ⟨config, hconfig, hlength⟩

/-- The marker in the second of five blocks; the two behind it make room for the configuration. -/
def sampleImage : List UInt8 := replicate 256 1 ++ (eofMarker ++ replicate 1020 2)

theorem config_stored_on_three_blocks :
    ∃ r fd config, mtdWrite plainOptions (some sampleFile) (smallNor 5) [] [] [.data sampleImage]
        = some r ∧ r.opened = [fd] ∧
      configBlocks 256 false sampleFile ⟨0, 0⟩ = some config ∧
      content fd.dev = overwritten (smallNor 5)
        (withConfig (blocksOf 256 0xff sampleImage) 1 config) := by
  obtain ⟨r, hrun, hsuccess⟩ :
      ∃ r ∈ mtdWrite plainOptions (some sampleFile) (smallNor 5) [] [] [.data sampleImage],
      r.status = .success := by decide +kernel
  have himage : blocksOf 256 0xff sampleImage =
      blocksOf (smallNor 5).erasesize 0xff ([] ++ delivered [.data sampleImage]) := by
    simp [delivered, smallNor]
  obtain ⟨fd, hopened, -, hstart⟩ := config_stored_iff rfl (fun _ => rfl) rfl rfl
    (by decide) (by decide +kernel) himage hrun hsuccess
  obtain ⟨last, config, hlast, hconfig, hiff⟩ := hstart 1 (by decide +kernel)
  have hfirst : numbersBefore plainOptions 256 (blocksOf 256 0xff sampleImage) 1 = some ⟨0, 0⟩ := by
    decide +kernel
  cases hlast.symm.trans hfirst
  obtain ⟨config', hconfig', hlength⟩ := length_sampleConfig
  cases hconfig.symm.trans hconfig'
  refine ⟨r, fd, config, hrun, hopened, hconfig, ?_⟩
  refine (hiff fun j _ => ⟨rfl, rfl⟩).mpr ?_
  rw [hlength]
  decide

/-- A configuration of three blocks on a device with one: the run is successful, but the
    other blocks are not on the device. -/
theorem not_config_stored :
    ∃ r fd config, mtdWrite plainOptions (some sampleFile) (smallNor 1) [] [] [.data eofMarker]
        = some r ∧ r.status = .success ∧ r.opened = [fd] ∧
      configStart plainOptions 256 (blocksOf 256 0xff eofMarker) = some 0 ∧
      configBlocks 256 false sampleFile ⟨0, 0⟩ = some config ∧
      content fd.dev ≠ overwritten (smallNor 1)
        (withConfig (blocksOf 256 0xff eofMarker) 0 config) := by
  obtain ⟨config, hconfig, hlength⟩ := length_sampleConfig
  obtain ⟨r, hrun, hsuccess, hblocks⟩ :
      ∃ r ∈ mtdWrite plainOptions (some sampleFile) (smallNor 1) [] [] [.data eofMarker],
      r.status = .success ∧ r.opened.map (·.dev.blocks) = [1] := by decide +kernel
  obtain ⟨fd, hopened, hone⟩ := map_eq_singleton_iff.mp hblocks
  refine ⟨r, fd, config, hrun, hsuccess, hopened, by decide +kernel, hconfig, fun heq => ?_⟩
  have hlen := congrArg length heq
  simp only [content, overwritten, withConfig, length_map, length_range, length_append] at hlen
  omega

end Rooter.Mtd
