import Rooter.NvramCommit

/-!
# The image after a commit

If there is room for all variables they come back from the partition.  The sum in the header
is the one over its bytes from the ninth on only if the processor is little endian: otherwise
the byte of the sum is among them.  And the padding stays inside the partition only if the
address is not negative as an `int`.
-/

namespace Rooter.Nvram

open List ChainedTable Memory

variable {d : Device}

/-! ### The padding -/

theorem padding_eq {addr : Nat} (hlt : addr < 0x100000000) : padding addr =
    if addr % 4 = 0 then 0 else if addr < 0x80000000 then 4 - addr % 4 else 8 - addr % 4 := by
  have hneg : ((addr : Int) - 0x100000000).tmod 4 = -((0x100000000 - addr) % 4) := by
    rw [← Int.tmod_eq_emod_of_nonneg (by omega), ← Int.neg_tmod, Int.neg_sub]
  unfold padding
  dsimp only
  split
  · rw [Int.tmod_eq_emod_of_nonneg (Int.natCast_nonneg _)]
    split <;> split <;> omega
  · split <;> split <;> omega

section Padding

variable (h : Handle d)

theorem padded_eq : h.padded = if (h.last + 1) % 4 = 0 then 0
    else if d.base + (h.offset + h.last + 1) < 0x80000000 then 4 - (h.last + 1) % 4
    else 8 - (h.last + 1) % 4 := by
  have hlast := h.last_le
  have hinside := d.inside
  have hbase := d.aligned
  have hoff := h.aligned
  unfold Handle.padded
  have hmod : (d.base + (h.offset + h.last + 1)) % 4 = (h.last + 1) % 4 := by omega
  rw [padding_eq (by omega), hmod]

theorem padded_le (hsize : (d.length - h.offset) % 4 ≤ 1)
    (hbase : d.base + d.length ≤ 0x80000000 + (d.length - h.offset) % 4) :
    h.offset + h.last + 1 + h.padded ≤ d.length := by
  have hlast := h.last_le
  rw [padded_eq]
  split
  · omega
  · split <;> omega

end Padding

/-! ### The sum -/

section Sum

theorem hndcrc8_append (s s' : Bytes) (crc : UInt8) :
    hndcrc8 (s ++ s') crc = hndcrc8 s' (hndcrc8 s crc) :=
  foldl_append

/-- One of the eight shifts behind an entry of the table, taken back. -/
def unshift (x : Nat) : Nat := (2 * x) ^^^ (x / 0x80 * 0x157)

theorem unshift_crc8Table (a : UInt8) : unshift^[8] (crc8Table.getD a.toNat 0).toNat = a.toNat := by
  have hmap : crc8Table.map (fun b => unshift^[8] b.toNat) = range 0x100 := by decide +kernel
  have hget := getElem?_range a.toNat_lt
  rw [← hmap, getElem?_map] at hget
  obtain ⟨b, hb, hback⟩ := Option.map_eq_some_iff.mp hget
  rw [getD_eq_getElem?_getD, hb]
  exact hback

theorem crc8Table_inj {a b : UInt8} (h : crc8Table.getD a.toNat 0 = crc8Table.getD b.toNat 0) :
    a = b := by
  rw [← UInt8.toNat_inj, ← unshift_crc8Table a, h, unshift_crc8Table b]

theorem hndcrc8_inj (s : Bytes) {a b : UInt8} (h : hndcrc8 s a = hndcrc8 s b) : a = b := by
  induction s generalizing a b with
  | nil => exact h
  | cons x s ih => exact (UInt8.xor_left_inj x).mp (crc8Table_inj (ih h))

theorem drop_header {l₀ l₁ l₂ l₃ l₄ : Bytes} (h₀ : l₀.length = 4) (h₁ : l₁.length = 4)
    (h₂ : l₂.length = 4) : (l₀ ++ l₁ ++ l₂ ++ l₃ ++ l₄).drop 9 = l₂.drop 1 ++ (l₃ ++ l₄) := by
  rw [append_assoc, append_assoc, show 9 = 8 + 1 from rfl, ← drop_drop,
    drop_left' (by rw [length_append, h₀, h₁]), drop_append_of_le_length (by omega)]

/-- The sum over the header and the data, with the word of the sum as it is stored. -/
theorem calculatedCrc_image (h : Handle d) : hndcrc8
    (load h.image (h.offset + 9) (d.word h.image (h.offset + 4) - 9)) 0xff =
      hndcrc8 (load h.body (h.offset + 20) (h.imageLen - 20))
        (hndcrc8 ((d.bytes (h.headerWords.1 + h.imageCrc.toNat)).drop 1 ++
          (d.bytes h.headerWords.2.1 ++ d.bytes h.headerWords.2.2)) 0xff) := by
  have hlast : 20 ≤ h.last := Nat.le_add_right _ _
  have hlen : h.imageLen - 9 = 3 + (8 + (h.imageLen - 20)) := by
    unfold Handle.imageLen
    omega
  have hword : load h.image (h.offset + 9) 3 =
      (d.bytes (h.headerWords.1 + h.imageCrc.toNat)).drop 1 := by
    rw [← h.load_image_crc]
    rfl
  rw [word_image_len, hlen, load_add, load_add, hword, ← append_assoc, hndcrc8_append,
    h.load_image_config, h.load_image_body (by omega)]

theorem drop_bytes (hle : d.bigEndian = false) {w : Nat} (hw : w % 0x100 = 0) (crc : UInt8) :
    (d.bytes (w + crc.toNat)).drop 1 = (d.bytes w).drop 1 := by
  have hlt := crc.toNat_lt
  unfold Device.bytes
  rw [hle]
  simp only [Bool.false_eq_true, if_false, map_cons, drop_succ_cons]
  rw [show (w + crc.toNat) / 0x100 = w / 0x100 by omega,
    show (w + crc.toNat) / 0x10000 = w / 0x10000 by omega,
    show (w + crc.toNat) / 0x1000000 = w / 0x1000000 by omega]

theorem drop_bytes_of_bigEndian (hbe : d.bigEndian = true) {w : Nat} (hw : w % 0x100 = 0)
    (crc : UInt8) : (d.bytes (w + crc.toNat)).drop 1 =
      [UInt8.ofNat (w / 0x10000), UInt8.ofNat (w / 0x100), crc] := by
  have hlt := crc.toNat_lt
  have hcrc : UInt8.ofNat (w + crc.toNat) = crc := by
    rw [← UInt8.toNat_inj, UInt8.toNat_ofNat']
    omega
  unfold Device.bytes
  rw [hbe]
  simp only [if_true, map_cons, map_nil, reverse_cons, reverse_nil,
    nil_append, cons_append, drop_succ_cons, drop_zero]
  rw [hcrc, show (w + crc.toNat) / 0x100 = w / 0x100 by omega,
    show (w + crc.toNat) / 0x10000 = w / 0x10000 by omega]

theorem hndcrc8_drop_bytes_iff (hbe : d.bigEndian = true) {w : Nat} (hw : w % 0x100 = 0)
    (s s' : Bytes) (crc : UInt8) :
    hndcrc8 s' (hndcrc8 ((d.bytes (w + crc.toNat)).drop 1 ++ s) 0xff) =
      hndcrc8 s' (hndcrc8 ((d.bytes w).drop 1 ++ s) 0xff) ↔ crc = 0 := by
  have hzero := drop_bytes_of_bigEndian hbe hw 0
  rw [drop_bytes_of_bigEndian hbe hw, show (d.bytes w).drop 1 = _ from hzero]
  constructor
  · intro h
    have hsum := hndcrc8_inj s' h
    rw [hndcrc8_append, hndcrc8_append] at hsum
    exact (UInt8.xor_right_inj _).mp (crc8Table_inj (hndcrc8_inj s hsum))
  · intro h
    rw [h]

theorem imageCrc_eq (h : Handle d) : h.imageCrc =
    hndcrc8 (load h.body (h.offset + 20) (h.imageLen - 20))
      (hndcrc8 ((d.bytes h.headerWords.1).drop 1 ++
        (d.bytes h.headerWords.2.1 ++ d.bytes h.headerWords.2.2)) 0xff) := by
  unfold Handle.imageCrc
  rw [drop_header (length_bytes d _) (length_bytes d _) (length_bytes d _)]

theorem storedCrc_image (h : Handle d) :
    d.word h.image (h.offset + 8) % 0x100 = h.imageCrc.toNat := by
  obtain ⟨hlow, hlt, -⟩ := h.headerWords_bounds
  have hcrc := h.imageCrc.toNat_lt
  rw [word_of_load h.load_image_crc (by omega)]
  omega

end Sum

/-! ### The round trip -/

/-- The variables are the same but for those of the SDRAM, the sum is right, and nothing is
    written in front of the header or behind the partition. -/
structure RoundTrip (h h' : Handle d) : Prop where
  same : ∀ k ∉ sdramNames, h'.nvramGet k = h.nvramGet k
  crc : h'.storedCrc = h'.calculatedCrc.toNat
  outside : ∀ a, a < h.offset ∨ d.length ≤ a → h'.mem a = h.mem a

/-- The variables fit, and their names have no `=`. -/
structure Writable (h : Handle d) : Prop where
  strings : Strings h
  names : ∀ e ∈ h.table.entries, 0x3d ∉ e.1
  fits : sizes h.table.entries ≤ h.room

section RoundTrip

variable {h h' : Handle d}

theorem crc_iff (hmem : h'.mem = h.image) (hoff : h'.offset = h.offset) :
    h'.storedCrc = h'.calculatedCrc.toNat ↔ d.bigEndian = false ∨ h.imageCrc = 0 := by
  have hlow := h.headerWords_bounds.1
  unfold Handle.storedCrc Handle.calculatedCrc
  rw [hmem, hoff, storedCrc_image, UInt8.toNat_inj, calculatedCrc_image]
  cases hend : d.bigEndian with
  | false =>
    rw [drop_bytes hend hlow, imageCrc_eq]
    exact ⟨fun _ => .inl rfl, fun _ => rfl⟩
  | true =>
    rw [eq_comm, ← hndcrc8_drop_bytes_iff hend hlow _ _ h.imageCrc, ← imageCrc_eq]
    exact ⟨.inr, fun h => h.resolve_left Bool.noConfusion⟩

theorem outside_iff (hmem : h'.mem = h.image) :
    (∀ a, a < h.offset ∨ d.length ≤ a → h'.mem a = h.mem a) ↔
      ∀ a, d.length ≤ a → a < h.offset + h.last + 1 + h.padded → h.mem a = 0 := by
  rw [hmem]
  constructor
  · intro hsame a ha hpad
    rw [← hsame a (.inr ha), h.image_of_ge ha, if_pos hpad]
  · rintro hzero a (ha | ha)
    · exact h.image_of_lt ha
    · rw [h.image_of_ge ha]
      split
      next hpad => exact (hzero a ha hpad).symm
      next => rfl

theorem Writable.exists_roundTrip_iff (hw : Writable h) :
    (∃ h', h.nvramCommit = some (h', 0) ∧ RoundTrip h h') ↔
      (d.bigEndian = false ∨ h.imageCrc = 0) ∧
        ∀ a, d.length ≤ a → a < h.offset + h.last + 1 + h.padded → h.mem a = 0 := by
  obtain ⟨h₁, hcommit, hmem, hoff, hget⟩ := exists_commit hw.strings
  rw [← crc_iff hmem hoff, ← outside_iff hmem]
  constructor
  · rintro ⟨h', hcommit', hround⟩
    rw [hcommit] at hcommit'
    cases hcommit'
    exact ⟨hround.crc, hround.outside⟩
  · rintro ⟨hcrc, hout⟩
    refine ⟨h₁, hcommit, fun k hk => Option.ext fun v => ?_, hcrc, hout⟩
    rw [hget k hk, tuples_of_sizes hw.fits,
      readBack_eq_some (Table.nodup_entries _) hw.names, Table.mem_entries]
    rfl

end RoundTrip

/-! #### The handles that show the conditions are needed -/

section Needed

variable {o : Nat} (ho : o % 4 = 0) (hs : o + 0x8000 ≤ d.length)

def emptyHandle : Handle d where
  mem _ := 0xff
  offset := o
  table := Table.empty
  aligned := ho
  space := hs

def fullHandle (n : Nat) : Handle d where
  mem _ := 0xff
  offset := o
  table := Table.empty.put (ascii ['a']) (replicate n 120)
  aligned := ho
  space := hs

theorem entries_fullHandle (n : Nat) :
    (fullHandle ho hs n).table.entries.Perm [(ascii ['a'], replicate n 120)] := by
  have hperm := Table.entries_put (t := (Table.empty : Table Bytes d.index)) (k := ascii ['a'])
    (v := replicate n 120) rfl
  rwa [Table.entries_empty] at hperm

theorem sizes_fullHandle (n : Nat) : sizes (fullHandle ho hs n).table.entries = n + 3 := by
  rw [sizes_perm (entries_fullHandle ho hs n), sizes_cons, sizes_nil]
  unfold tupleSize
  rw [length_replicate, show (ascii ['a']).length = 1 from rfl]
  omega

theorem writable_fullHandle {n : Nat} (hn : n + 25 ≤ d.length - o) :
    Writable (fullHandle ho hs n) := by
  have hmem : ∀ e ∈ (fullHandle ho hs n).table.entries,
      e = (ascii ['a'], replicate n 120) := fun e he =>
    mem_singleton.mp ((entries_fullHandle ho hs n).mem_iff.mp he)
  refine ⟨fun e he => ?_, fun e he => ?_, ?_⟩
  · rw [hmem e he]
    refine ⟨show 0 ∉ ascii ['a'] by decide, fun hzero => ?_⟩
    exact absurd (eq_of_mem_replicate hzero) (by decide)
  · rw [hmem e he]
    exact show 0x3d ∉ ascii ['a'] by decide
  · rw [sizes_fullHandle]
    change n + 3 ≤ d.length - o - 22
    omega

theorem last_fullHandle {n : Nat} (hn : n + 25 ≤ d.length - o) :
    (fullHandle ho hs n).last = n + 23 := by
  unfold Handle.last
  rw [tuples_of_sizes (writable_fullHandle ho hs hn).fits, sizes_fullHandle]
  omega

theorem two_le_padded {n : Nat} (hn : n + 25 ≤ d.length - o)
    (hmod : (n + 24) % 4 = 1 ∨ (n + 24) % 4 = 2) : 2 ≤ (fullHandle ho hs n).padded := by
  rw [padded_eq, last_fullHandle ho hs hn, if_neg (by omega)]
  split <;> omega

theorem padded_fullHandle_of_high {n : Nat} (hn : n + 25 ≤ d.length - o) (hmod : (n + 24) % 4 = 3)
    (hhigh : 0x80000000 ≤ d.base + (o + (n + 24))) : (fullHandle ho hs n).padded = 5 := by
  have haddr : ¬d.base + ((fullHandle ho hs n).offset + (n + 23) + 1) < 0x80000000 :=
    Nat.not_lt.mpr hhigh
  rw [padded_eq, last_fullHandle ho hs hn, if_neg (by omega), if_neg haddr, hmod]

theorem writable_emptyHandle : Writable (emptyHandle ho hs) := by
  have hentries : (emptyHandle ho hs).table.entries = [] := Table.entries_empty
  refine ⟨fun e he => ?_, fun e he => ?_, ?_⟩
  · rw [hentries] at he
    exact absurd he not_mem_nil
  · rw [hentries] at he
    exact absurd he not_mem_nil
  · rw [hentries]
    exact Nat.zero_le _

theorem load_body_emptyHandle :
    load (emptyHandle ho hs).body ((emptyHandle ho hs).offset + 20)
      ((emptyHandle ho hs).imageLen - 20) = [0, 0, 0, 0] := by
  have htuples : (emptyHandle ho hs).tuples = [] :=
    (tuples_of_sizes (writable_emptyHandle ho hs).fits).trans Table.entries_empty
  have hlast : (emptyHandle ho hs).last = 20 := by
    unfold Handle.last
    rw [htuples]
    rfl
  have hpad : 3 ≤ (emptyHandle ho hs).padded := by
    rw [padded_eq, hlast, if_neg (by decide)]
    split <;> decide
  have hfirst : (emptyHandle ho hs).body (o + 20) = 0 := by
    unfold Handle.body
    rw [hlast, htuples]
    exact (fill_out (.inl (Nat.lt_succ_self _))).trans (store_in (k := 0) rfl)
  have hrest : ∀ k < 3, (emptyHandle ho hs).body (o + 21 + k) = 0 := by
    intro k hk
    unfold Handle.body
    rw [hlast]
    exact fill_in (Nat.le_add_right _ _) (Nat.add_lt_add_left (Nat.lt_of_lt_of_le hk hpad) _)
  unfold Handle.imageLen
  rw [hlast]
  have h₁ : (emptyHandle ho hs).body (o + 20 + 1) = 0 := hrest 0 (by decide)
  have h₂ : (emptyHandle ho hs).body (o + 20 + 1 + 1) = 0 := hrest 1 (by decide)
  have h₃ : (emptyHandle ho hs).body (o + 20 + 1 + 1 + 1) = 0 := hrest 2 (by decide)
  change load (emptyHandle ho hs).body (o + 20) 4 = _
  rw [load, load, load, load, load, hfirst, h₁, h₂, h₃]

theorem imageCrc_emptyHandle (hbe : d.bigEndian = true) : (emptyHandle ho hs).imageCrc = 136 := by
  have hbytes : ∀ w, d.bytes w = (smallDevice true).bytes w := fun w => by
    unfold Device.bytes
    rw [hbe]
    rfl
  have hwords : (emptyHandle ho hs).headerWords =
      (0x100 + 0x419 * 0x10000, 0 + 0x8040 * 0x10000, 0) := rfl
  rw [imageCrc_eq, load_body_emptyHandle, hwords, hbytes, hbytes, hbytes]
  decide +kernel

end Needed

/-! ### When it holds -/

theorem roundTrip_iff (d : Device) :
    (∀ h : Handle d, Writable h → ((∃ h', h.nvramCommit = some (h', 0) ∧ RoundTrip h h') ↔
      (d.bigEndian = false ∨ h.imageCrc = 0) ∧
        ∀ a, d.length ≤ a → a < h.offset + h.last + 1 + h.padded → h.mem a = 0)) ∧
    ∀ o, o % 4 = 0 → o + 0x8000 ≤ d.length →
      ((∀ h : Handle d, h.offset = o → Writable h →
        ∃ h', h.nvramCommit = some (h', 0) ∧ RoundTrip h h') ↔
          d.bigEndian = false ∧ (d.length - o) % 4 ≤ 1 ∧
            d.base + d.length ≤ 0x80000000 + (d.length - o) % 4) := by
  refine ⟨fun h hw => hw.exists_roundTrip_iff, fun o ho hs => ⟨fun hall => ?_, ?_⟩⟩
  · have hle : d.bigEndian = false := by
      rw [← Bool.not_eq_true]
      intro hbe
      have hw := writable_emptyHandle ho hs
      rcases (hw.exists_roundTrip_iff.mp (hall _ rfl hw)).1 with hle | hcrc
      · exact absurd (hbe.symm.trans hle) Bool.noConfusion
      · exact absurd ((imageCrc_emptyHandle ho hs hbe).symm.trans hcrc) (by decide)
    have hroom : ∀ n, n + 25 ≤ d.length - o →
        o + n + 24 + (fullHandle ho hs n).padded ≤ d.length := by
      intro n hn
      refine Nat.le_of_not_lt fun hlt => ?_
      have hw := writable_fullHandle ho hs hn
      have hzero := (hw.exists_roundTrip_iff.mp (hall _ rfl hw)).2 d.length (Nat.le_refl _)
      rw [last_fullHandle ho hs hn] at hzero
      exact absurd (hzero hlt) (show 0xff ≠ 0 by decide)
    -- the byte behind the variable is the last one of the partition
    have hsize : (d.length - o) % 4 ≤ 1 := by
      refine Nat.le_of_not_lt fun hlt => ?_
      have hle := hroom (d.length - o - 25) (by omega)
      have hpad := two_le_padded ho hs (n := d.length - o - 25) (by omega) (by omega)
      omega
    refine ⟨hle, hsize, Nat.le_of_not_lt fun hlt => ?_⟩
    -- and here it is the last but `(d.length - o) % 4`, one before a multiple of four
    obtain ⟨n, hn⟩ : ∃ n, d.length - o = n + 25 + (d.length - o) % 4 :=
      ⟨d.length - o - 25 - (d.length - o) % 4, by omega⟩
    have hle := hroom n (by omega)
    rw [padded_fullHandle_of_high ho hs (by omega) (by omega) (by omega)] at hle
    omega
  · rintro ⟨hle, hsize, hbase⟩ h rfl hw
    have hpad := padded_le h hsize hbase
    exact hw.exists_roundTrip_iff.mpr ⟨.inl hle, fun a ha hlt => by omega⟩

theorem roundTrip_smallDevice : ∃ h : Handle (smallDevice false), Reachable false h ∧ Writable h ∧
    h.nvramGet (ascii ['a']) = some (ascii ['b']) ∧
      ∃ h', h.nvramCommit = some (h', 0) ∧ RoundTrip h h' := by
  obtain ⟨h, hreach, hoff, hget, hsize, hnames⟩ := exists_fresh_set false (ascii ['a'])
    (ascii ['b']) (by decide) (by decide) (by decide) (by decide)
  have hw : Writable h := by
    refine ⟨hreach.opened.strings, fun e he => ?_, ?_⟩
    · rcases hnames e he with heq | hsdram
      · rw [heq]
        decide
      · exact (show ∀ k ∈ sdramNames, 0x3d ∉ k by decide) e.1 hsdram
    · rw [hsize]
      unfold Handle.room
      rw [hoff]
      decide
  have hall := ((roundTrip_iff (smallDevice false)).2 0 rfl (by decide)).mpr
    ⟨rfl, by decide, by decide⟩
  exact ⟨h, hreach, hw, hget, hall h hoff hw⟩

/-- A partition as the kernel of a 32 bit processor maps it when 3 GiB are the process's own. -/
def highDevice : Device :=
  { smallDevice false with
    signedChar := false
    base := 0xb6f00000
    aligned := by decide
    inside := by decide }

theorem not_roundTrip_highDevice :
    (∃ h : Handle (smallDevice true), Reachable false h ∧ Writable h ∧
      ¬∃ h', h.nvramCommit = some (h', 0) ∧ RoundTrip h h') ∧
    ∃ h : Handle highDevice, Writable h ∧
      ¬∃ h', h.nvramCommit = some (h', 0) ∧ RoundTrip h h' := by
  refine ⟨?_, ?_⟩
  · obtain ⟨h, hopen, hcrc, hfits, hnames⟩ :
        ∃ h ∈ nvramOpen (smallDevice true) (freshMem (smallDevice true)) false,
        h.imageCrc ≠ 0 ∧ sizes h.table.entries ≤ h.room ∧
          ∀ e ∈ h.table.entries, 0x3d ∉ e.1 := by decide +kernel
    have hreach : Reachable false h := ⟨_, h, hopen, Relation.ReflTransGen.refl⟩
    have hw : Writable h := ⟨hreach.opened.strings, hnames, hfits⟩
    refine ⟨h, hreach, hw, fun hround => ?_⟩
    rcases (hw.exists_roundTrip_iff.mp hround).1 with hle | hzero
    · exact absurd hle (by decide)
    · exact hcrc hzero
  · have ho : 0 % 4 = 0 := rfl
    have hs : 0 + 0x8000 ≤ highDevice.length := by decide
    have hn : 32743 + 25 ≤ highDevice.length - 0 := by decide
    have hw := writable_fullHandle ho hs hn
    refine ⟨fullHandle ho hs 32743, hw, fun hround => ?_⟩
    have hzero := (hw.exists_roundTrip_iff.mp hround).2 0x8000 (Nat.le_refl _)
    rw [last_fullHandle ho hs hn, padded_fullHandle_of_high ho hs hn rfl (by decide)] at hzero
    exact absurd (hzero (show 0x8000 < 0 + (32743 + 23) + 1 + 5 by decide))
      (show 0xff ≠ 0 by decide)

end Rooter.Nvram
