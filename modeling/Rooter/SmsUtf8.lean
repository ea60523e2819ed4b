import Rooter.SmsOutcome
import Rooter.SmsUnicode

/-!
# Decoded texts are UTF-8

`word2utf8` puts octets together with `bitor` and `bitand`, which the scripts compute bit by bit
with additions, since the interpreter has no operators for them.  The first part shows that they
are the operators of natural numbers.  The second part follows the text: whatever the words are,
each call appends the octets of characters, also when one half of a surrogate pair is missing.
-/

namespace Rooter.SmsRead.Script

/-! ### The arithmetic of the scripts -/

def hasbit (x p : Nat) : Bool := p ≤ x % (p + p)

/-- `while p <= limit`, the loop of `bitor` and `bitand`.  `p` is doubled in each round, so
    `limit + 1` rounds are enough. -/
def bitLoop (keep : Bool → Bool → Bool) (x y limit : Nat) : Nat → Nat → Nat → Nat
  | 0, _, z => z
  | fuel + 1, p, z =>
      if p ≤ limit then
        bitLoop keep x y limit fuel (p + p) (if keep (hasbit x p) (hasbit y p) then z + p else z)
      else z

def bitor (x y : Nat) : Nat :=
  let limit := if y < x then x else y
  bitLoop or x y limit (limit + 1) 1 0

def bitand (x y : Nat) : Nat :=
  let limit := if y < x then x else y
  bitLoop and x y limit (limit + 1) 1 0

def bitright (x y : Nat) : Nat := x / 2 ^ y

def bitleft (x y : Nat) : Nat := x * 2 ^ y

/-- `word2utf8(i, txt)` with these functions. -/
def word2utf8 (i surrogate : Nat) (txt : List Char) : List Char × Nat :=
  if 0 < surrogate then
    if 0xDC00 ≤ i ∧ i ≤ 0xDFFF then
      let ii := 0x10000 + bitand i 0x3FF + bitleft (bitand surrogate 0x3FF) 10
      (txt ++ [Char.ofNat (bitor 0xF0 (bitright (bitand ii 0x1C0000) 18)),
        Char.ofNat (bitor 0x80 (bitright (bitand ii 0x3F000) 12)),
        Char.ofNat (bitor 0x80 (bitright (bitand ii 0xFC0) 6)),
        Char.ofNat (bitor 0x80 (bitand ii 0x3F))], 0)
    else (txt ++ [Char.ofNat 0xe2, Char.ofNat 0x96, Char.ofNat 0xa1], 0)
  else if 0xD800 ≤ i ∧ i ≤ 0xDBFF then (txt, i)
  else if 0xDC00 ≤ i ∧ i ≤ 0xDFFF then
    (txt ++ [Char.ofNat 0xe2, Char.ofNat 0x96, Char.ofNat 0xa1], surrogate)
  else if i < 0x80 then (txt ++ [Char.ofNat i], surrogate)
  else if i < 0x800 then
    (txt ++ [Char.ofNat (bitor 0xC0 (bitright (bitand i 0x7C0) 6)),
      Char.ofNat (bitor 0x80 (bitand i 0x3F))], surrogate)
  else if i = 0x2029 then (txt ++ [Char.ofNat 10], surrogate)
  else
    (txt ++ [Char.ofNat (bitor 0xE0 (bitright (bitand i 0xF000) 12)),
      Char.ofNat (bitor 0x80 (bitright (bitand i 0xFC0) 6)),
      Char.ofNat (bitor 0x80 (bitand i 0x3F))], surrogate)

theorem mod_two_pow_succ (x k : Nat) :
    x % 2 ^ (k + 1) = 2 ^ k * (x.testBit k).toNat + x % 2 ^ k := by
  rw [Nat.mod_pow_succ, Nat.add_comm, Nat.toNat_testBit]

theorem hasbit_two_pow (x k : Nat) : hasbit x (2 ^ k) = x.testBit k := by
  have hpow : 2 ^ k + 2 ^ k = 2 ^ (k + 1) := by rw [Nat.pow_succ]; omega
  have hlow : x % 2 ^ k < 2 ^ k := Nat.mod_lt _ (Nat.two_pow_pos k)
  rw [hasbit, hpow, mod_two_pow_succ]
  cases x.testBit k with
  | false => simpa using hlow
  | true => simp

/-- **The loop computes the bitwise operation**: before the round for bit `k` the sum is right
    up to this bit. -/
theorem bitLoop_eq {keep : Bool → Bool → Bool} (hkeep : keep false false = false)
    {x y limit : Nat} (hx : x ≤ limit) (hy : y ≤ limit) (fuel : Nat) :
    ∀ k, limit < fuel + k → bitLoop keep x y limit fuel (2 ^ k) (Nat.bitwise keep x y % 2 ^ k)
      = Nat.bitwise keep x y := by
  have hdone : ∀ k, limit < 2 ^ k → Nat.bitwise keep x y % 2 ^ k = Nat.bitwise keep x y := by
    intro k hk
    exact Nat.mod_eq_of_lt (Nat.bitwise_lt_two_pow (by omega) (by omega))
  induction fuel with
  | zero =>
    intro k hk
    rw [Nat.zero_add] at hk
    exact hdone k (hk.trans k.lt_two_pow_self)
  | succ fuel ih =>
    intro k hk
    rw [bitLoop]
    split
    · have hsum : (if keep (hasbit x (2 ^ k)) (hasbit y (2 ^ k)) then
          Nat.bitwise keep x y % 2 ^ k + 2 ^ k else Nat.bitwise keep x y % 2 ^ k)
          = Nat.bitwise keep x y % 2 ^ (k + 1) := by
        rw [mod_two_pow_succ, Nat.testBit_bitwise hkeep, hasbit_two_pow, hasbit_two_pow]
        cases keep (x.testBit k) (y.testBit k) with
        | false => simp
        | true => simp [Nat.add_comm]
      have hpow : 2 ^ k + 2 ^ k = 2 ^ (k + 1) := by rw [Nat.pow_succ]; omega
      rw [hsum, hpow]
      exact ih (k + 1) (by omega)
    · exact hdone k (by omega)

theorem bitLoop_start {keep : Bool → Bool → Bool} (hkeep : keep false false = false) (x y : Nat) :
    bitLoop keep x y (if y < x then x else y) ((if y < x then x else y) + 1) 1 0
      = Nat.bitwise keep x y := by
  have hx : x ≤ if y < x then x else y := by split <;> omega
  have hy : y ≤ if y < x then x else y := by split <;> omega
  have h := bitLoop_eq hkeep hx hy ((if y < x then x else y) + 1) 0 (by omega)
  rwa [Nat.pow_zero, Nat.mod_one] at h

theorem bitor_eq (x y : Nat) : bitor x y = x ||| y := bitLoop_start rfl x y

theorem bitand_eq (x y : Nat) : bitand x y = x &&& y := bitLoop_start rfl x y

theorem bitright_eq (x y : Nat) : bitright x y = x >>> y := (Nat.shiftRight_eq_div_pow x y).symm

theorem bitleft_eq (x y : Nat) : bitleft x y = x <<< y := (Nat.shiftLeft_eq x y).symm

/-- **The octets are those of the operators.** -/
theorem word2utf8_eq (i surrogate : Nat) (txt : List Char) :
    word2utf8 i surrogate txt = SmsRead.word2utf8 i surrogate txt := by
  simp only [word2utf8, bitor_eq, bitand_eq, bitright_eq, bitleft_eq]
  rfl

end Rooter.SmsRead.Script

namespace Rooter.SmsEncode

open Program SmsRead

/-! ### Valid texts -/

def ValidUtf8 (text : List Char) : Prop := ∃ cs : List Char, text = bytesOf cs

theorem validUtf8_nil : ValidUtf8 [] := ⟨[], rfl⟩

theorem ValidUtf8.append {text : List Char} (h : ValidUtf8 text) (c : Char) :
    ValidUtf8 (text ++ utf8 c) := by
  obtain ⟨cs, rfl⟩ := h
  exact ⟨cs ++ [c], by simp [bytesOf]⟩

theorem replacement_eq : replacement = utf8 (Char.ofNat 0x25A1) := by decide +kernel

/-- `surrogate` is zero or the first half of a pair. -/
def Pending (surrogate : Nat) : Prop := surrogate = 0 ∨ 0xD800 ≤ surrogate ∧ surrogate ≤ 0xDBFF

theorem toNat_ofNat_of_valid {n : Nat} (h : n < 0xD800 ∨ 0xDFFF < n ∧ n < 0x110000) :
    (Char.ofNat n).toNat = n := by
  rw [Char.ofNat, dif_pos h]
  rfl

/-- A word that is no surrogate: the octets of a character, whatever `surrogate` is. -/
theorem validUtf8_word2utf8_basic {i : Nat} (hi : i < 0xD800 ∨ 0xDFFF < i ∧ i < 0x10000)
    {txt : List Char} (htxt : ValidUtf8 txt) (surrogate : Nat) :
    ValidUtf8 (word2utf8 i surrogate txt).1 ∧ (word2utf8 i surrogate txt).2 = 0 := by
  by_cases hzero : 0 < surrogate
  · rw [word2utf8, if_pos hzero, if_neg (by omega), replacement_eq]
    exact ⟨htxt.append _, rfl⟩
  · obtain rfl : surrogate = 0 := by omega
    have hchar : (Char.ofNat i).toNat = i := toNat_ofNat_of_valid (by omega)
    have hbasic := @word2utf8_basic (Char.ofNat i) (by omega) txt
    rw [hchar] at hbasic
    rw [hbasic]
    exact ⟨htxt.append _, rfl⟩

theorem validUtf8_word2utf8_pair {i surrogate : Nat} (hi : 0xDC00 ≤ i ∧ i ≤ 0xDFFF)
    (hsurrogate : 0 < surrogate) {txt : List Char} (htxt : ValidUtf8 txt) :
    ValidUtf8 (word2utf8 i surrogate txt).1 ∧ (word2utf8 i surrogate txt).2 = 0 := by
  have hlow : i &&& 0x3FF < 1024 := Nat.and_lt_two_pow _ (by decide : 0x3FF < 2 ^ 10)
  have hhigh : surrogate &&& 0x3FF < 1024 := Nat.and_lt_two_pow _ (by decide : 0x3FF < 2 ^ 10)
  have hchar : (Char.ofNat (0x10000 + (i &&& 0x3FF) + (surrogate &&& 0x3FF) <<< 10)).toNat
      = 0x10000 + (i &&& 0x3FF) + (surrogate &&& 0x3FF) <<< 10 := toNat_ofNat_of_valid (by omega)
  rw [word2utf8_pair (by rw [hchar]; omega) hsurrogate hi hchar.symm]
  exact ⟨htxt.append _, rfl⟩

/-- **One call of `word2utf8` keeps the text valid.** -/
theorem validUtf8_word2utf8 {i surrogate : Nat} (hi : i < 0x10000) (hpending : Pending surrogate)
    {txt : List Char} (htxt : ValidUtf8 txt) :
    ValidUtf8 (word2utf8 i surrogate txt).1 ∧ Pending (word2utf8 i surrogate txt).2 := by
  by_cases hword : i < 0xD800 ∨ 0xDFFF < i ∧ i < 0x10000
  · obtain ⟨hvalid, hzero⟩ := validUtf8_word2utf8_basic hword htxt surrogate
    exact ⟨hvalid, .inl hzero⟩
  by_cases hzero : 0 < surrogate
  · by_cases hsecond : 0xDC00 ≤ i ∧ i ≤ 0xDFFF
    · obtain ⟨hvalid, hdone⟩ := validUtf8_word2utf8_pair hsecond hzero htxt
      exact ⟨hvalid, .inl hdone⟩
    · rw [word2utf8, if_pos hzero, if_neg (by omega), replacement_eq]
      exact ⟨htxt.append _, .inl rfl⟩
  · by_cases hfirst : i ≤ 0xDBFF
    · rw [word2utf8, if_neg hzero, if_pos (by omega)]
      exact ⟨htxt, .inr (by omega)⟩
    · rw [word2utf8, if_neg hzero, if_neg (by omega), if_pos (by omega), replacement_eq]
      exact ⟨htxt.append _, hpending⟩

theorem validUtf8_writeWords (ws : List Nat) : ∀ {txt : List Char} {surrogate : Nat},
    (∀ w ∈ ws, w < 0x10000) → Pending surrogate → ValidUtf8 txt →
      ValidUtf8 (writeWords ws txt surrogate).1 := by
  induction ws with
  | nil =>
    intro txt surrogate _ _ htxt
    exact htxt
  | cons w ws ih =>
    intro txt surrogate hws hpending htxt
    obtain ⟨hvalid, hnext⟩ := validUtf8_word2utf8 (hws w List.mem_cons_self) hpending htxt
    exact ih (fun v hv => hws v (List.mem_cons_of_mem _ hv)) hnext hvalid

/-! ### Octets -/

theorem validUtf8_binaryLoop {pdu : List Char} {skip : Nat} {alphabet : Int} (h : alphabet ≠ 2)
    (n : Nat) : ∀ {k lastI surrogate : Nat} {text : List Char}, ValidUtf8 text →
      ValidUtf8 (binaryLoop pdu skip alphabet n k lastI text surrogate).2.1 := by
  induction n with
  | zero =>
    intro k lastI surrogate text htext
    exact htext
  | succ n ih =>
    intro k lastI surrogate text htext
    rw [binaryLoop]
    split
    · exact htext
    · next i _ =>
      rw [if_neg h]
      apply ih
      have hsmall : (if i < 32 ∨ 127 < i then 0x25A1 else i) < 0xD800 := by
        split <;> omega
      exact (validUtf8_word2utf8_basic (.inl hsmall) htext surrogate).1

theorem validUtf8_pdu2binary {pdu : List Char} {withUdh : Bool} {d d' : Decoder} {result : Int}
    (halphabet : d.mAlphabet ≠ 2) (h : pdu2binary pdu withUdh d = .ok (result, d')) :
    ∃ text, d'.mText = some text ∧ ValidUtf8 text := by
  obtain ⟨skip, n, c, rfl⟩ := pdu2binary_frame h
  exact ⟨_, rfl, validUtf8_binaryLoop halphabet _ validUtf8_nil⟩

theorem pdu2binary_octets {os : List Nat} (hlen : os.length < 256) (hos : ∀ o ∈ os, o < 256)
    (d : Decoder) : ∃ d', pdu2binary (formatX 2 os.length ++ os.flatMap (formatX 2)) false d
      = .ok (os.length, d') := by
  obtain ⟨hwidth, -, hvalue, hhex⟩ := formatX_spec _ hlen
  have hloop := binaryLoop_ok (hhex.append (hex_flatMap_formatX hos)) 0 d.mAlphabet os.length 0 0 []
    d.surrogate
  have hall := hloop.mpr (.inr (by
    rw [List.length_append, length_flatMap_formatX hos]
    omega))
  unfold pdu2binary
  rw [run_bind_of_ok (run_modify _ d), octet2binCheck_append (by omega), hvalue]
  dsimp only
  have hskip : skipOctets (formatX 2 os.length ++ os.flatMap (formatX 2)) false
      { d with mText := some [] } = .ok (some 0, { d with mText := some [] }) := rfl
  rw [run_bind_of_ok hskip]
  dsimp only
  rw [run_bind_of_ok (run_get _), Nat.sub_zero]
  rw [hall, Int.natCast_zero]
  exact ⟨_, rfl⟩

/-- **Decoded texts are valid UTF-8**: for every sequence of words, and for every string that goes
    through the octet branch of `pdu2binary`, which decodes every sequence of octets. -/
theorem validUtf8_decoded :
    (∀ ws : List Nat, (∀ w ∈ ws, w < 0x10000) →
      ValidUtf8 (ws.foldl (fun p w => Script.word2utf8 w p.2 p.1) ([], 0)).1) ∧
    (∀ (os : List Nat) (d : Decoder), os.length < 256 → (∀ o ∈ os, o < 256) → d.mAlphabet ≠ 2 →
      ∃ d' text, pdu2binary (formatX 2 os.length ++ os.flatMap (formatX 2)) false d
        = .ok (os.length, d') ∧ d'.mText = some text ∧ ValidUtf8 text) ∧
    (∀ (pdu : List Char) (withUdh : Bool) (d d' : Decoder) (result : Int), d.mAlphabet ≠ 2 →
      pdu2binary pdu withUdh d = .ok (result, d') →
      ∃ text, d'.mText = some text ∧ ValidUtf8 text) := by
  refine ⟨?_, ?_, ?_⟩
  · intro ws hws
    simp only [Script.word2utf8_eq]
    exact validUtf8_writeWords ws hws (.inl rfl) validUtf8_nil
  · intro os d hlen hos halphabet
    obtain ⟨d', hrun⟩ := pdu2binary_octets hlen hos d
    obtain ⟨text, htext, hvalid⟩ := validUtf8_pdu2binary halphabet hrun
    exact ⟨d', text, hrun, htext, hvalid⟩
  · intro pdu withUdh d d' result halphabet hrun
    exact validUtf8_pdu2binary halphabet hrun

/-- A reversed pair, a repeated first half and a character. -/
theorem validUtf8_decoded_halves :
    ValidUtf8 ([0xDC00, 0xD800, 0xD800, 0x41].foldl (fun p w => Script.word2utf8 w p.2 p.1)
      ([], 0)).1 :=
  validUtf8_decoded.1 _ (by decide)

end Rooter.SmsEncode
