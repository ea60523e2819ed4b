import Rooter.SmsRoundTrip

/-!
# Texts in sixteen bits

A text that does not fit the seven-bit alphabet is written by `chktxt` as UTF-16, four
digits for a word, and `pdu2binary` makes UTF-8 of the words again.  Characters outside
the basic plane take two words, and between them the decoder keeps the first one in
`surrogate`.
-/

namespace Rooter.SmsEncode

open List Numeral LuaString Program SmsRead

/-! ### Bits of a character -/

theorem and_63 (v : Nat) : v &&& 0x3F = v % 64 := Nat.and_two_pow_sub_one_eq_mod v 6

theorem marked_low (v n k : Nat) {mask mark : Nat} (hmask : mask = 2 ^ n - 1)
    (hmark : mark = 2 ^ n * k) : mark ||| (v &&& mask) = v % 2 ^ n + mark := by
  rw [hmask, hmark, Nat.and_two_pow_sub_one_eq_mod, Nat.add_comm]
  exact (Nat.two_pow_add_eq_or_of_lt (Nat.mod_lt _ (Nat.two_pow_pos n)) k).symm

theorem marked_field (v low n k : Nat) {mask mark : Nat} (hmask : mask = (2 ^ n - 1) * 2 ^ low)
    (hmark : mark = 2 ^ n * k) : mark ||| (v &&& mask) >>> low = v / 2 ^ low % 2 ^ n + mark := by
  rw [hmask, Nat.shiftRight_and_distrib, Nat.shiftRight_eq_div_pow, Nat.shiftRight_eq_div_pow,
    Nat.mul_div_cancel _ (Nat.two_pow_pos low)]
  exact marked_low _ n k rfl hmark

theorem or_shiftLeft {x i : Nat} (hx : x < 2 ^ i) (y : Nat) : x ||| y <<< i = x + y * 2 ^ i := by
  rw [Nat.or_comm, ← Nat.shiftLeft_add_eq_or_of_lt hx, Nat.shiftLeft_eq, Nat.add_comm]

theorem toNat_ofNat {n : Nat} (h : n < 0xD800) : (Char.ofNat n).toNat = n := by
  rw [Char.ofNat, dif_pos (.inl h)]
  rfl

theorem toNat_lt (c : Char) : c.toNat < 0xD800 ∨ 0xDFFF < c.toNat ∧ c.toNat < 0x110000 := c.valid

theorem utf8_eq (c : Char) : utf8 c =
    if c.toNat ≤ 0x7F then [c]
    else if c.toNat ≤ 0x7FF then
      [Char.ofNat (c.toNat / 64 % 32 + 0xC0), Char.ofNat (c.toNat % 64 + 0x80)]
    else if c.toNat ≤ 0xFFFF then
      [Char.ofNat (c.toNat / 4096 % 16 + 0xE0), Char.ofNat (c.toNat / 64 % 64 + 0x80),
        Char.ofNat (c.toNat % 64 + 0x80)]
    else
      [Char.ofNat (c.toNat / 262144 % 8 + 0xF0), Char.ofNat (c.toNat / 4096 % 64 + 0x80),
        Char.ofNat (c.toNat / 64 % 64 + 0x80), Char.ofNat (c.toNat % 64 + 0x80)] := by
  have hoctet : ∀ n, n < 256 → (UInt8.ofNat n).toNat = n := by
    intro n hn
    rw [UInt8.toNat_ofNat', Nat.mod_eq_of_lt hn]
  have hval : c.val.toNat = c.toNat := rfl
  simp only [utf8, String.utf8EncodeChar, hval]
  split
  · rw [map_singleton, hoctet _ (by omega), Char.ofNat_toNat]
  split
  · simp only [map_cons, map_nil]
    rw [hoctet _ (by omega), hoctet _ (by omega)]
  split
  · simp only [map_cons, map_nil]
    rw [hoctet _ (by omega), hoctet _ (by omega), hoctet _ (by omega)]
  · simp only [map_cons, map_nil]
    rw [hoctet _ (by omega), hoctet _ (by omega), hoctet _ (by omega), hoctet _ (by omega)]

/-! ### From characters to words -/

def utf16 (c : Char) : List Nat :=
  if c.toNat < 0x10000 then [c.toNat]
  else [0xD800 + (c.toNat - 0x10000) / 1024, 0xDC00 + (c.toNat - 0x10000) % 1024]

variable {c : Char}

theorem utf16_lt {w : Nat} (h : w ∈ utf16 c) : w < 0x10000 := by
  have hc := toNat_lt c
  unfold utf16 at h
  split at h
  · simp at h
    omega
  · simp at h
    omega

/-- The seven-bit digits of a character, if `chktxt` has some. -/
def sevenBits (ch : Nat) : Option (List Char) :=
  match g7t ch with
  | some res => some res
  | none => if ch ≤ 0x7F ∧ ch ≠ 0x60 then some (formatX 2 ch) else none

def Scan.add (s : Scan) (c : Char) : Scan :=
  ⟨s.unicode ++ (utf16 c).flatMap (formatX 4), s.g7hex ++ (sevenBits c.toNat).getD [],
    s.g7isok && (sevenBits c.toNat).isSome⟩

/-- The characters in the table of `chktxt`. -/
def g7Keys : List Nat :=
  [64, 163, 36, 165, 232, 233, 249, 236, 242, 199, 216, 248, 197, 229, 0x394, 95, 0x3A6, 0x393,
   0x39B, 0x3A9, 0x3A0, 0x3A8, 0x3A3, 0x398, 0x39E, 198, 230, 223, 201, 164, 161, 196, 214, 209,
   220, 167, 191, 228, 246, 241, 252, 224, 94, 123, 125, 92, 91, 126, 93, 124, 0x20AC]

theorem mem_g7Keys {ch : Nat} (h : (g7t ch).isSome = true) : ch ∈ g7Keys := by
  unfold g7t at h
  split at h
  all_goals first | decide | cases h

theorem sevenBits_of_lt {ch : Nat} (h : 0xFFFF < ch) : sevenBits ch = none := by
  have hall : ∀ key ∈ g7Keys, key ≤ 0xFFFF := by decide
  have hnone : g7t ch = none := by
    rw [← Option.not_isSome_iff_eq_none]
    intro hsome
    have hle := hall ch (mem_g7Keys hsome)
    omega
  have hnot : ¬ ch ≤ 0x7F ∧ ch ≠ 0x60 := by omega
  simp [sevenBits, hnone, hnot]

theorem surrogates_eq (s : Scan) (hc : 0xFFFF < c.toNat) : s.surrogates c.toNat = s.add c := by
  have hlt := toNat_lt c
  have hch : (c.toNat + 0x100000 - 0x10000) % 0x100000 = c.toNat - 0x10000 := by omega
  have hw₁ : 0xD800 ||| (c.toNat - 0x10000 &&& 0xFFC00) >>> 10
      = 0xD800 + (c.toNat - 0x10000) / 1024 := by
    have hfield : 0xD800 ||| (c.toNat - 0x10000 &&& 0xFFC00) >>> 10
        = (c.toNat - 0x10000) / 1024 % 1024 + 0xD800 := marked_field _ 10 10 54 rfl rfl
    omega
  have hw₂ : 0xDC00 ||| c.toNat - 0x10000 &&& 0x3FF
      = 0xDC00 + (c.toNat - 0x10000) % 1024 := by
    rw [Nat.add_comm]
    exact marked_low _ 10 55 rfl rfl
  have hnone : sevenBits c.toNat = none := sevenBits_of_lt hc
  rw [Scan.add, utf16, if_neg (by omega), hnone]
  simp only [Scan.surrogates, hch, hw₁, hw₂, flatMap_cons, flatMap_nil,
    append_nil, append_assoc, Option.getD_none, Option.isSome_none, Bool.and_false]

/-! The octets of a character are put together again. -/

theorem join_two {n : Nat} (h : n < 0x800) :
    (n % 64 + 0x80 &&& 0x3F) ||| (n / 64 % 32 + 0xC0 &&& 0x3F) <<< 6 = n := by
  rw [and_63, and_63, or_shiftLeft (by omega)]
  omega

theorem join_three {n : Nat} (h : n < 0x10000) :
    (n % 64 + 0x80 &&& 0x3F) ||| ((n / 64 % 64 + 0x80 &&& 0x3F) <<< 6 |||
      (n / 4096 % 16 + 0xE0 &&& 0xF) <<< 12) = n := by
  have hhigh : n / 4096 % 16 + 0xE0 &&& 0xF = n / 4096 := by
    rw [Nat.and_two_pow_sub_one_eq_mod _ 4]
    omega
  rw [and_63, and_63, ← Nat.or_assoc, or_shiftLeft (i := 6) (by omega), or_shiftLeft (by omega)]
  omega

theorem join_four {n : Nat} (h : n < 0x200000) :
    (n % 64 + 0x80 &&& 0x3F) ||| ((n / 64 % 64 + 0x80 &&& 0x3F) <<< 6 |||
      ((n / 4096 % 64 + 0x80 &&& 0x3F) <<< 12 ||| (n / 262144 % 8 + 0xF0 &&& 7) <<< 18)) = n := by
  have hhigh : n / 262144 % 8 + 0xF0 &&& 7 = n / 262144 := by
    rw [Nat.and_two_pow_sub_one_eq_mod _ 3]
    omega
  rw [and_63, and_63, and_63, ← Nat.or_assoc, or_shiftLeft (by omega),
    ← Nat.or_assoc, or_shiftLeft (i := 12) (by omega), or_shiftLeft (by omega)]
  omega

theorem wide_eq (s : Scan) (hlow : 0x7F < c.toNat) (hhigh : c.toNat < 0x10000) :
    s.wide c.toNat = s.add c := by
  rw [Scan.wide, Scan.add, sevenBits, utf16, if_pos hhigh]
  cases g7t c.toNat with
  | none =>
    have hnot : ¬ c.toNat ≤ 0x7F ∧ c.toNat ≠ 0x60 := by omega
    simp [hnot]
  | some res => simp

theorem chktxtLoop_one (h : c.toNat ≤ 0x7F) (rest : List Char) (s : Scan) :
    chktxtLoop (c :: rest) s = chktxtLoop rest (s.add c) := by
  have hwords : (utf16 c).flatMap (formatX 4) = formatX 4 c.toNat := by
    simp [utf16, show c.toNat < 0x10000 by omega]
  rw [chktxtLoop.eq_def, Scan.add, hwords]
  dsimp only
  rw [if_neg (by omega), if_neg (by omega), if_neg (by omega)]
  by_cases htick : c.toNat = 0x60
  · have hnone : sevenBits 0x60 = none := by decide
    have hdigits : formatX 4 0x60 = "0060".toList := by decide
    rw [htick, hnone, hdigits]
    simp
  · rw [if_neg htick, if_pos h, Scan.narrow, sevenBits]
    cases g7t c.toNat with
    | none => simp [h, htick]
    | some res => simp

theorem chktxtLoop_utf8 (c : Char) (rest : List Char) (s : Scan) :
    chktxtLoop (utf8 c ++ rest) s = chktxtLoop rest (s.add c) := by
  have hlt := toNat_lt c
  rw [utf8_eq]
  split
  · next hone => exact chktxtLoop_one hone rest s
  split
  · -- two octets
    have hfirst := @toNat_ofNat (c.toNat / 64 % 32 + 0xC0) (by omega)
    refine (chktxtLoop_two (by omega) (by omega) _ rest s).trans ?_
    rw [hfirst, toNat_ofNat (by omega), join_two (by omega), wide_eq s (by omega) (by omega)]
  split
  · -- three octets
    have hfirst := @toNat_ofNat (c.toNat / 4096 % 16 + 0xE0) (by omega)
    refine (chktxtLoop_three (by omega) (by omega) _ _ rest s).trans ?_
    rw [hfirst, toNat_ofNat (by omega), toNat_ofNat (by omega), join_three (by omega),
      wide_eq s (by omega) (by omega)]
  · -- four octets
    have hfirst := @toNat_ofNat (c.toNat / 262144 % 8 + 0xF0) (by omega)
    refine (chktxtLoop_four (by omega) _ _ _ rest s).trans ?_
    rw [hfirst, toNat_ofNat (by omega), toNat_ofNat (by omega), toNat_ofNat (by omega),
      join_four (by omega), surrogates_eq s (by omega)]

/-- **What the loop of `chktxt` makes of a text**: the UTF-16 form, and the seven-bit form as far
    as there is one. -/
theorem chktxtLoop_text (text : List Char) : ∀ s : Scan, chktxtLoop (bytesOf text) s
    = .ok ⟨s.unicode ++ (text.flatMap utf16).flatMap (formatX 4),
        s.g7hex ++ text.flatMap (fun c => (sevenBits c.toNat).getD []),
        s.g7isok && text.all (fun c => (sevenBits c.toNat).isSome)⟩ := by
  induction text with
  | nil =>
    intro s
    simp [bytesOf, chktxtLoop]
  | cons c text ih =>
    intro s
    rw [bytesOf, flatMap_cons, chktxtLoop_utf8]
    refine (ih (s.add c)).trans ?_
    simp only [Scan.add, flatMap_cons, flatMap_append, append_assoc, all_cons, Bool.and_assoc]

theorem chktxt_utf16 {text : List Char} {r : Checked} (h : chktxt (bytesOf text) = .ok r)
    (hdcs : r.dcs = "08".toList) : r.txt = (text.flatMap utf16).flatMap (formatX 4) ∧
      r.txt.length ≤ 280 := by
  obtain ⟨s, hloop, rfl⟩ := chktxt_eq_ok h
  rw [chktxtLoop_text] at hloop
  cases hloop
  rcases Scan.choose_cases _ (bytesOf text) with ⟨-, heq⟩ | ⟨hwide, heq⟩ | ⟨-, -, msg, heq⟩
  · rw [heq] at hdcs
    exact absurd (show "00".toList = "08".toList from hdcs) (by decide)
  · rw [heq]
    exact ⟨nil_append _, hwide.2⟩
  · rw [heq] at hdcs
    exact absurd (show [] = "08".toList from hdcs) (by decide)

/-! ### From words to characters -/

theorem formatX_two :
    ∀ n < 256, formatX 2 n = [upperHexDigit (n / 16), upperHexDigit (n % 16)] := by
  intro n hn
  unfold formatX
  by_cases h : n < 16
  · rw [upperHex_of_lt h, Nat.div_eq_of_lt h, Nat.mod_eq_of_lt h]
    rfl
  · rw [upperHex_append (by omega), upperHex_of_lt (by omega)]
    rfl

theorem formatX_four {w : Nat} (h : w < 0x10000) :
    formatX 4 w = formatX 2 (w / 256) ++ formatX 2 (w % 256) := by
  by_cases hw : w < 256
  · have hlen : (formatX 2 w).length = 2 := (formatX_spec w hw).1
    rw [formatX, length_append] at hlen
    have hzeros : 4 - (upperHex w).length = 2 + (2 - (upperHex w).length) := by omega
    rw [Nat.div_eq_of_lt hw, Nat.mod_eq_of_lt hw, formatX, hzeros, replicate_add]
    rfl
  · have hdigits : upperHex w = upperHex (w / 256) ++ formatX 2 (w % 256) := by
      have hmid : w % 256 / 16 = w / 16 % 16 := by omega
      have hlow : w % 256 % 16 = w % 16 := by omega
      rw [upperHex_append (by omega), upperHex_append (by omega), Nat.div_div_eq_div_mul,
        formatX_two _ (Nat.mod_lt _ (by decide)), hmid, hlow, append_assoc]
      rfl
    have hlen : 4 - (upperHex w).length = 2 - (upperHex (w / 256)).length := by
      rw [hdigits, length_append, (formatX_spec _ (Nat.mod_lt _ (by decide))).1]
      omega
    rw [formatX, hlen, hdigits, ← append_assoc]
    rfl

/-- `word2utf8` for one word after the other. -/
def writeWords (ws : List Nat) (text : List Char) (surrogate : Nat) : List Char × Nat :=
  ws.foldl (fun p w => word2utf8 w p.2 p.1) (text, surrogate)

theorem binaryLoop_words (ws : List Nat) : ∀ {pdu : List Char} {k : Nat}, (∀ w ∈ ws, w < 0x10000) →
    pdu.drop (4 * k + 2) = ws.flatMap (formatX 4) → ∀ (lastI : Nat) (text : List Char)
      (surrogate : Nat), binaryLoop pdu 0 2 (2 * ws.length) (2 * k) lastI text surrogate
        = (true, writeWords ws text surrogate) := by
  induction ws with
  | nil =>
    intro pdu k _ _ lastI text surrogate
    rfl
  | cons w ws ih =>
    intro pdu k hws hpdu lastI text surrogate
    have hw := hws w mem_cons_self
    obtain ⟨hlen₁, -, hvalue₁, -⟩ := formatX_spec (w / 256) (by omega)
    obtain ⟨hlen₂, -, hvalue₂, -⟩ := formatX_spec (w % 256) (by omega)
    rw [flatMap_cons, formatX_four hw, append_assoc] at hpdu
    have hdrop : ∀ i j, j = 4 * k + 2 + i → pdu.drop j
        = (formatX 2 (w / 256) ++ (formatX 2 (w % 256) ++ ws.flatMap (formatX 4))).drop i := by
      intro i j hj
      rw [hj, ← drop_drop, hpdu]
    have hfirst : octet2binCheck (subFrom pdu (2 * k * 2 + 3 + 0 * 2)) = some (w / 256) := by
      rw [subFrom, hdrop 0 _ (by omega), drop_zero, octet2binCheck_append (by omega), hvalue₁]
    have hsecond : octet2binCheck (subFrom pdu ((2 * k + 1) * 2 + 3 + 0 * 2)) = some (w % 256) := by
      rw [subFrom, hdrop 2 _ (by omega), drop_left' hlen₁, octet2binCheck_append (by omega),
        hvalue₂]
    have hrest : pdu.drop (4 * (k + 1) + 2) = ws.flatMap (formatX 4) := by
      rw [hdrop 4 _ (by omega), ← append_assoc]
      exact drop_left' (by rw [length_append, hlen₁, hlen₂])
    have hword : (w / 256) <<< 8 ||| w % 256 = w := by
      rw [Nat.or_comm, or_shiftLeft (by omega)]
      omega
    rw [length_cons, Nat.mul_succ, binaryLoop, hfirst]
    dsimp only
    rw [if_pos rfl, if_pos (by omega), binaryLoop, hsecond]
    dsimp only
    rw [if_pos rfl, if_neg (by omega), hword]
    exact ih (fun x hx => hws x (mem_cons_of_mem _ hx)) hrest _ _ _

def shown (c : Char) : Char := if c.toNat = 0x2029 then '\n' else c

theorem word2utf8_basic (hc : c.toNat < 0x10000) (text : List Char) :
    word2utf8 c.toNat 0 text = (text ++ utf8 (shown c), 0) := by
  have hlt := toNat_lt c
  have hlow : 0x80 ||| c.toNat &&& 0x3F = c.toNat % 64 + 0x80 := marked_low _ 6 2 rfl rfl
  have hmid : 0x80 ||| (c.toNat &&& 0xFC0) >>> 6 = c.toNat / 64 % 64 + 0x80 :=
    marked_field _ 6 6 2 rfl rfl
  rw [word2utf8, if_neg (by omega), if_neg (by omega), if_neg (by omega)]
  by_cases hpar : c.toNat = 0x2029
  · have hshown : shown c = '\n' := if_pos hpar
    have hfeed : utf8 '\n' = ['\n'] := by decide
    rw [hshown, hfeed, if_neg (by omega), if_neg (by omega), if_pos hpar]
  have hshown : shown c = c := if_neg hpar
  rw [hshown, utf8_eq]
  by_cases hone : c.toNat ≤ 0x7F
  · rw [if_pos (by omega), if_pos hone, Char.ofNat_toNat]
  by_cases htwo : c.toNat ≤ 0x7FF
  · have hhigh : 0xC0 ||| (c.toNat &&& 0x7C0) >>> 6 = c.toNat / 64 % 32 + 0xC0 :=
      marked_field _ 6 5 6 rfl rfl
    rw [if_neg (by omega), if_pos (by omega), if_neg hone, if_pos htwo, hhigh, hlow]
  · have hhigh : 0xE0 ||| (c.toNat &&& 0xF000) >>> 12 = c.toNat / 4096 % 16 + 0xE0 :=
      marked_field _ 12 4 14 rfl rfl
    rw [if_neg (by omega), if_neg (by omega), if_neg hpar, if_neg hone, if_neg htwo,
      if_pos (by omega), hhigh, hmid, hlow]

theorem word2utf8_pair (hc : 0xFFFF < c.toNat) {i surrogate : Nat} (hsurrogate : 0 < surrogate)
    (hi : 0xDC00 ≤ i ∧ i ≤ 0xDFFF)
    (hjoin : 0x10000 + (i &&& 0x3FF) + (surrogate &&& 0x3FF) <<< 10 = c.toNat) (text : List Char) :
    word2utf8 i surrogate text = (text ++ utf8 c, 0) := by
  have hlow : 0x80 ||| c.toNat &&& 0x3F = c.toNat % 64 + 0x80 := marked_low _ 6 2 rfl rfl
  have hmid : 0x80 ||| (c.toNat &&& 0xFC0) >>> 6 = c.toNat / 64 % 64 + 0x80 :=
    marked_field _ 6 6 2 rfl rfl
  have hsecond : 0x80 ||| (c.toNat &&& 0x3F000) >>> 12 = c.toNat / 4096 % 64 + 0x80 :=
    marked_field _ 12 6 2 rfl rfl
  have hfirst : 0xF0 ||| (c.toNat &&& 0x1C0000) >>> 18 = c.toNat / 262144 % 8 + 0xF0 :=
    marked_field _ 18 3 30 rfl rfl
  rw [word2utf8, if_pos hsurrogate, if_pos hi, hjoin]
  dsimp only
  rw [hfirst, hsecond, hmid, hlow, utf8_eq, if_neg (by omega), if_neg (by omega), if_neg (by omega)]

theorem writeWords_utf16 (c : Char) (text : List Char) :
    writeWords (utf16 c) text 0 = (text ++ utf8 (shown c), 0) := by
  have hlt := toNat_lt c
  by_cases hc : c.toNat < 0x10000
  · rw [utf16, if_pos hc]
    exact word2utf8_basic hc text
  · -- the first word is kept, the second one completes the character
    have hfirst : word2utf8 (0xD800 + (c.toNat - 0x10000) / 1024) 0 text
        = (text, 0xD800 + (c.toNat - 0x10000) / 1024) := by
      rw [word2utf8, if_neg (by omega), if_pos (by omega)]
    have hjoin : 0x10000 + (0xDC00 + (c.toNat - 0x10000) % 1024 &&& 0x3FF)
        + (0xD800 + (c.toNat - 0x10000) / 1024 &&& 0x3FF) <<< 10 = c.toNat := by
      rw [Nat.and_two_pow_sub_one_eq_mod _ 10, Nat.and_two_pow_sub_one_eq_mod _ 10]
      omega
    have hshown : shown c = c := if_neg (by omega)
    rw [utf16, if_neg hc, writeWords, foldl_cons, hfirst, foldl_cons, foldl_nil,
      word2utf8_pair (by omega) (by omega) (by omega) hjoin, hshown]

theorem writeWords_append (vs ws : List Nat) (text : List Char) (surrogate : Nat) :
    writeWords (vs ++ ws) text surrogate
      = writeWords ws (writeWords vs text surrogate).1 (writeWords vs text surrogate).2 := by
  rw [writeWords, foldl_append]
  rfl

theorem writeWords_bytesOf (text : List Char) : ∀ before : List Char,
    writeWords (text.flatMap utf16) before 0 = (before ++ bytesOf (text.map shown), 0) := by
  induction text with
  | nil =>
    intro before
    simp [writeWords, bytesOf]
  | cons c text ih =>
    intro before
    rw [flatMap_cons, writeWords_append, writeWords_utf16, ih]
    simp [bytesOf]

theorem length_flatMap_formatX_four {ws : List Nat} (h : ∀ w ∈ ws, w < 0x10000) :
    (ws.flatMap (formatX 4)).length = 4 * ws.length := by
  induction ws with
  | nil => rfl
  | cons w ws ih =>
    have hw := h w mem_cons_self
    rw [flatMap_cons, length_append, ih fun x hx => h x (mem_cons_of_mem _ hx),
      formatX_four hw, length_append, (formatX_spec _ (by omega)).1,
      (formatX_spec _ (by omega)).1, length_cons]
    omega

/-- **A text in sixteen bits is read back**, with a line feed for a paragraph separator. -/
theorem pdu2binary_chktxt {text : List Char} {r : Checked} (hne : text ≠ [])
    (h : chktxt (bytesOf text) = .ok r) (hdcs : r.dcs = "08".toList) {d : Decoder}
    (halphabet : d.mAlphabet = 2) (hsurrogate : d.surrogate = 0) :
    ∃ octets : Nat, 2 * octets = r.txt.length ∧ 0 < octets ∧ octets < 256 ∧
      pdu2binary (formatX 2 octets ++ r.txt) false d
        = .ok (octets, { d with mText := some (bytesOf (text.map shown)) }) := by
  obtain ⟨htxt, hlen⟩ := chktxt_utf16 h hdcs
  have hws : ∀ w ∈ text.flatMap utf16, w < 0x10000 := by
    intro w hw
    obtain ⟨c, -, hc⟩ := mem_flatMap.mp hw
    exact utf16_lt hc
  have hcount := length_flatMap_formatX_four hws
  rw [← htxt] at hcount
  have hpos : 0 < (text.flatMap utf16).length := by
    obtain ⟨c, text, rfl⟩ := exists_cons_of_ne_nil hne
    rw [flatMap_cons, length_append, utf16]
    split
    · rw [length_singleton]
      omega
    · rw [length_cons]
      omega
  have hsmall : 2 * (text.flatMap utf16).length < 256 := by omega
  obtain ⟨hwidth, -, hvalue, -⟩ := formatX_spec _ hsmall
  refine ⟨2 * (text.flatMap utf16).length, by omega, by omega, hsmall, ?_⟩
  have hdrop : (formatX 2 (2 * (text.flatMap utf16).length) ++ r.txt).drop (4 * 0 + 2)
      = (text.flatMap utf16).flatMap (formatX 4) := by
    rw [htxt]
    exact drop_left' hwidth
  have hloop := binaryLoop_words (text.flatMap utf16) hws hdrop 0 [] 0
  rw [writeWords_bytesOf] at hloop
  unfold pdu2binary
  rw [run_bind_of_ok (run_modify _ d), octet2binCheck_append (by omega), hvalue]
  dsimp only
  have hskip : skipOctets (formatX 2 (2 * (text.flatMap utf16).length) ++ r.txt) false
      { d with mText := some [] } = .ok (some 0, { d with mText := some [] }) := rfl
  rw [run_bind_of_ok hskip]
  dsimp only
  rw [run_bind_of_ok (run_get _)]
  simp only [halphabet, hsurrogate, Nat.sub_zero, hloop]
  rfl

def mixedText : List Char := ['ß', Char.ofNat 0x2029, Char.ofNat 0x1F600]

def wideDecoder : Decoder := { Decoder.initial with mAlphabet := 2 }

theorem pdu2binary_chktxt_mixed :
    mixedText.map shown = ['ß', '\n', Char.ofNat 0x1F600] ∧
    ∃ r, chktxt (bytesOf mixedText) = .ok r ∧ r.dcs = "08".toList ∧
      ∃ octets : Nat, 2 * octets = r.txt.length ∧ 0 < octets ∧ octets < 256 ∧
        pdu2binary (formatX 2 octets ++ r.txt) false wideDecoder = .ok (octets,
          { wideDecoder with mText := some (bytesOf (mixedText.map shown)) }) := by
  have hchecked : chktxt (bytesOf mixedText)
      = .ok ⟨none, "08".toList, "00DF2029D83DDE00".toList⟩ := by decide +kernel
  exact ⟨by decide +kernel, _, hchecked, rfl,
    pdu2binary_chktxt (by decide +kernel) hchecked rfl rfl rfl⟩

end Rooter.SmsEncode
