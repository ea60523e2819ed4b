import Rooter.SmsUnicode

/-!
# The choice of the alphabet

`chktxt` builds the seven-bit and the sixteen-bit form of a text side by side and decides at the
end.  A character has a seven-bit form if the table has one or if it is an ASCII character other
than the grave accent.  The characters of the GSM alphabet are among them, but so are the control
characters, whose septets mean something else to the receiver (`Stray`).
-/

namespace Rooter.SmsEncode

open List LuaString Program SmsRead

/-! ### Characters with a seven-bit form -/

/-- `chktxt` has a seven-bit form of the character. -/
def SevenBit (c : Char) : Prop := (sevenBits c.toNat).isSome = true

instance (c : Char) : Decidable (SevenBit c) := inferInstanceAs (Decidable (_ = _))

def Stray (c : Char) : Prop :=
  (c.toNat < 32 ∧ c.toNat ≠ 10 ∧ c.toNat ≠ 13) ∨ c.toNat = 127

instance (c : Char) : Decidable (Stray c) := inferInstanceAs (Decidable (_ ∨ _))

def basicAlphabet : List Char :=
  (range 128).filterMap fun ch =>
    if ch = 27 then none else some (Char.ofNat ((gTable1 ch).getD ch))

/-- The number of septets of a text: an escape stands before a character of the extension. -/
def septetCount (text : List Char) : Nat :=
  (text.map fun c => if c ∈ basicAlphabet then 1 else 2).sum

theorem gsmAlphabet_spec {c : Char} (hc : c ∈ gsmAlphabet) :
    ¬ Stray c ∧ SevenBit c ∧ (septets c).length ≤ 2 := by
  have hall : gsmAlphabet.all (fun c => decide (¬ Stray c ∧ SevenBit c ∧
      (septets c).length ≤ 2)) = true := by decide +kernel
  exact of_decide_eq_true (all_eq_true.mp hall c hc)

def StandFor (ch : Nat) : List Nat → Prop
  | [k] => k < 128 ∧ k ≠ 27 ∧ (gTable1 k).getD k = ch
  | [_, k] => k < 128 ∧ gTable2 k = some ch
  | _ => False

instance (ch : Nat) (xs : List Nat) : Decidable (StandFor ch xs) :=
  match xs with
  | [] => inferInstanceAs (Decidable False)
  | [_] => inferInstanceAs (Decidable (_ ∧ _ ∧ _))
  | [_, _] => inferInstanceAs (Decidable (_ ∧ _))
  | _ :: _ :: _ :: _ => inferInstanceAs (Decidable False)

/-- The septets that `chktxt` writes for a code stand for it. -/
def Listed (ch : Nat) : Prop := StandFor ch (septets (Char.ofNat ch))

instance (ch : Nat) : Decidable (Listed ch) := inferInstanceAs (Decidable (StandFor _ _))

theorem Listed.mem {ch : Nat} (h : Listed ch) : Char.ofNat ch ∈ gsmAlphabet := by
  unfold Listed StandFor at h
  split at h
  · next k _ =>
    obtain ⟨hk, hescape, htable⟩ := h
    refine mem_append_left _ (mem_filterMap.mpr ⟨k, mem_range.mpr hk, ?_⟩)
    rw [if_neg hescape, htable]
  · next k _ =>
    obtain ⟨hk, htable⟩ := h
    refine mem_append_right _ (mem_filterMap.mpr ⟨k, mem_range.mpr hk, ?_⟩)
    rw [htable, Option.map_some]
  · exact h.elim

theorem sevenBits_codes : ((range 128).filter (· ≠ 0x60) ++ g7Keys).all (fun ch =>
    decide (Listed ch ∨ Stray (Char.ofNat ch))) = true := by
  decide +kernel

theorem sevenBit_iff (c : Char) : SevenBit c ↔ c ∈ gsmAlphabet ∨ Stray c := by
  constructor
  · intro h
    have hcode : c.toNat ∈ (range 128).filter (· ≠ 0x60) ++ g7Keys := by
      unfold SevenBit sevenBits at h
      cases hg : g7t c.toNat with
      | some res => exact mem_append_right _ (mem_g7Keys (by rw [hg]; rfl))
      | none =>
        rw [hg] at h
        dsimp only at h
        split at h
        · next hascii =>
          apply mem_append_left
          simp only [mem_filter, mem_range, decide_eq_true_eq]
          omega
        · cases h
    have hall := of_decide_eq_true (all_eq_true.mp sevenBits_codes _ hcode)
    rw [Char.ofNat_toNat] at hall
    refine hall.imp_left fun hlisted => ?_
    have hmem := hlisted.mem
    rwa [Char.ofNat_toNat] at hmem
  · rintro (h | h)
    · exact (gsmAlphabet_spec h).2.1
    · unfold SevenBit sevenBits
      split
      · rfl
      · rw [if_pos (by unfold Stray at h; omega)]
        rfl

/-- What `chktxt` writes for a character with a seven-bit form: one septet or two. -/
structure Narrow (c : Char) : Prop where
  digits : sevenBits c.toNat = some ((septets c).flatMap (formatX 2))
  septet : ∀ x ∈ septets c, x < 128
  pos : 1 ≤ (septets c).length
  le_two : (septets c).length ≤ 2

theorem narrow_of_stray {c : Char} (h : Stray c) : Narrow c := by
  unfold Stray at h
  have hkeys : ∀ key ∈ g7Keys, 32 ≤ key ∧ key ≠ 127 := by decide
  have hnone : g7t c.toNat = none := by
    rw [← Option.not_isSome_iff_eq_none]
    intro hsome
    have hkey := hkeys _ (mem_g7Keys hsome)
    omega
  have hseptets : septets c = [c.toNat] := by rw [septets, hnone]
  refine ⟨?_, ?_, ?_, ?_⟩
  · rw [sevenBits, hnone, hseptets]
    rw [if_pos (by omega), flatMap_singleton]
  · rw [hseptets]
    simp
    omega
  · rw [hseptets]
    exact Nat.le_refl 1
  · rw [hseptets]
    exact Nat.le_succ 1

theorem narrow_of_mem {c : Char} (hc : c ∈ gsmAlphabet) : Narrow c := by
  obtain ⟨-, hseven, hlen⟩ := gsmAlphabet_spec hc
  have htabled := tabled hc
  refine ⟨?_, ?_, htabled.nonempty, hlen⟩
  · rw [← htabled.digits]
    unfold SevenBit at hseven
    unfold sevenBits at hseven ⊢
    cases hg : g7t c.toNat with
    | some res => rfl
    | none =>
      rw [hg] at hseven
      dsimp only at hseven ⊢
      split at hseven
      · next hascii => rw [if_pos hascii]; rfl
      · cases hseven
  · intro x hx
    exact of_decide_eq_true (all_eq_true.mp htabled.septet x hx)

theorem narrow_of_sevenBit {c : Char} (h : SevenBit c) : Narrow c := by
  rcases (sevenBit_iff c).mp h with hc | hc
  · exact narrow_of_mem hc
  · exact narrow_of_stray hc

/-! ### Texts -/

section Text

variable {text : List Char}

section

variable (h : ∀ c ∈ text, SevenBit c)

include h

theorem flatMap_sevenBits :
    text.flatMap (fun c => (sevenBits c.toNat).getD [])
      = (text.flatMap septets).flatMap (formatX 2) := by
  rw [flatMap_assoc]
  refine flatMap_congr fun c hc => ?_
  rw [(narrow_of_sevenBit (h c hc)).digits]
  rfl

theorem septets_lt_of_sevenBit : ∀ x ∈ text.flatMap septets, x < 128 := by
  intro x hx
  obtain ⟨c, hc, hxc⟩ := mem_flatMap.mp hx
  exact (narrow_of_sevenBit (h c hc)).septet x hxc

theorem length_flatMap_sevenBits :
    (text.flatMap (fun c => (sevenBits c.toNat).getD [])).length
      = 2 * (text.flatMap septets).length := by
  rw [flatMap_sevenBits h]
  exact length_flatMap_formatX fun x hx => (septets_lt_of_sevenBit h x hx).trans (by decide)

theorem length_septets_le : (text.flatMap septets).length ≤ 2 * (text.flatMap utf16).length := by
  induction text with
  | nil => exact Nat.le_refl _
  | cons c text ih =>
    have hc := (narrow_of_sevenBit (h c mem_cons_self)).le_two
    have hword : 1 ≤ (utf16 c).length := by
      unfold utf16
      split <;> simp
    have hrest := ih fun x hx => h x (mem_cons_of_mem _ hx)
    simp only [flatMap_cons, length_append]
    omega

end

theorem length_words (text : List Char) :
    ((text.flatMap utf16).flatMap (formatX 4)).length = 4 * (text.flatMap utf16).length := by
  refine length_flatMap_formatX_four fun w hw => ?_
  obtain ⟨c, -, hc⟩ := mem_flatMap.mp hw
  exact utf16_lt hc

theorem bytesOf_ne_nil (hne : text ≠ []) : bytesOf text ≠ [] := by
  obtain ⟨c, text, rfl⟩ := exists_cons_of_ne_nil hne
  intro h
  have hc : utf8 c = [] := (append_eq_nil_iff.mp h).1
  rw [utf8_eq] at hc
  split at hc
  · cases hc
  split at hc
  · cases hc
  split at hc <;> cases hc

theorem choose_spec (s : Scan) (txt : List Char) :
    ((s.choose txt).msg = none ↔ (s.g7isok = true ∧ s.g7hex.length ≤ 320) ∨
      (¬ s.g7isok = true ∧ s.unicode.length ≤ 280)) ∧
    ((s.choose txt).dcs = "00".toList ↔ s.g7isok = true ∧ s.g7hex.length ≤ 320) ∧
    ((s.choose txt).dcs = "00".toList → (s.choose txt).txt = s.g7hex) := by
  have hempty : ¬ [] = "00".toList := by decide
  have hother : ¬ "08".toList = "00".toList := by decide
  rcases s.choose_cases txt with ⟨hseven, heq⟩ | ⟨hwide, heq⟩ | ⟨hseven, hwide, msg, heq⟩
  · rw [heq]
    exact ⟨iff_of_true rfl (.inl hseven), iff_of_true rfl hseven, fun _ => rfl⟩
  · rw [heq]
    exact ⟨iff_of_true rfl (.inr hwide), iff_of_false hother fun h => hwide.1 h.1,
      fun h => absurd h hother⟩
  · rw [heq]
    exact ⟨iff_of_false (Option.some_ne_none _) (not_or.mpr ⟨hseven, hwide⟩),
      iff_of_false hempty hseven, fun h => absurd h hempty⟩

/-- **The decision of `chktxt`** in terms of the characters. -/
theorem chktxt_text (hne : text ≠ []) : ∃ r, chktxt (bytesOf text) = .ok r ∧
    (r.msg = none ↔ ((∀ c ∈ text, SevenBit c) ∧ (text.flatMap septets).length ≤ 160) ∨
      (¬ (∀ c ∈ text, SevenBit c) ∧ (text.flatMap utf16).length ≤ 70)) ∧
    (r.dcs = "00".toList ↔
      (∀ c ∈ text, SevenBit c) ∧ (text.flatMap septets).length ≤ 160) ∧
    (r.dcs = "00".toList → r.txt = (text.flatMap septets).flatMap (formatX 2)) := by
  have hloop := chktxtLoop_text text ⟨[], [], true⟩
  simp only [nil_append, Bool.true_and] at hloop
  refine ⟨_, by rw [chktxt, if_neg (bytesOf_ne_nil hne), hloop]; rfl, ?_⟩
  obtain ⟨hmsg, hdcs, htxt⟩ := choose_spec ⟨(text.flatMap utf16).flatMap (formatX 4),
    text.flatMap fun c => (sevenBits c.toNat).getD [],
    text.all fun c => (sevenBits c.toNat).isSome⟩ (bytesOf text)
  have hok : text.all (fun c => (sevenBits c.toNat).isSome) = true ↔ ∀ c ∈ text, SevenBit c :=
    all_eq_true
  have hunicode : ((text.flatMap utf16).flatMap (formatX 4)).length ≤ 280
      ↔ (text.flatMap utf16).length ≤ 70 := by
    rw [length_words]
    omega
  have hseven : (∀ c ∈ text, SevenBit c) ∧
      (text.flatMap fun c => (sevenBits c.toNat).getD []).length ≤ 320
      ↔ (∀ c ∈ text, SevenBit c) ∧ (text.flatMap septets).length ≤ 160 := by
    refine and_congr_right fun hall => ?_
    rw [length_flatMap_sevenBits hall]
    omega
  rw [hok, hseven, hunicode] at hmsg
  rw [hok, hseven] at hdcs
  refine ⟨hmsg, hdcs, fun h => ?_⟩
  rw [htxt h, flatMap_sevenBits (hdcs.mp h).1]

/-- **A text is refused only if it cannot be sent in one message.** -/
theorem chktxt_msg_eq_none_iff (hne : text ≠ []) : ∃ r, chktxt (bytesOf text) = .ok r ∧
    (r.msg = none ↔ ((∀ c ∈ text, SevenBit c) ∧ (text.flatMap septets).length ≤ 160) ∨
      (text.flatMap utf16).length ≤ 70) := by
  obtain ⟨r, hr, hmsg, -, -⟩ := chktxt_text hne
  refine ⟨r, hr, hmsg.trans (or_congr_right' fun hnot => ?_)⟩
  refine ⟨And.right, fun hwords => ⟨fun hseven => hnot ⟨hseven, ?_⟩, hwords⟩⟩
  -- seventy words are at most 140 septets
  have hle := length_septets_le hseven
  omega

/-- **Only texts of the GSM alphabet are sent in seven bits**, up to control characters. -/
theorem chktxt_gsm_iff (hne : text ≠ []) :
    (∀ r, chktxt (bytesOf text) = .ok r → r.dcs = "00".toList → Gsm text) ↔
      (∀ c ∈ text, ¬ Stray c) ∨ (∃ c ∈ text, c ∉ gsmAlphabet ∧ ¬ Stray c) ∨
        160 < (text.flatMap septets).length := by
  obtain ⟨r, hr, -, hdcs, -⟩ := chktxt_text hne
  have hseven : (∀ c ∈ text, SevenBit c) ↔ ¬ ∃ c ∈ text, c ∉ gsmAlphabet ∧ ¬ Stray c := by
    simp only [sevenBit_iff, not_exists, not_and, ← not_or, not_not]
  have hone : (∀ r, chktxt (bytesOf text) = .ok r → r.dcs = "00".toList → Gsm text) ↔
      r.dcs = "00".toList → Gsm text := by
    refine ⟨fun h => h r hr, fun h r' hr' => ?_⟩
    cases hr.symm.trans hr'
    exact h
  rw [hone, hdcs, hseven]
  constructor
  · intro hgsm
    by_contra hnot
    simp only [not_or, Nat.not_lt] at hnot
    obtain ⟨hstray, hwide, hlen⟩ := hnot
    exact hstray fun c hc => (gsmAlphabet_spec (hgsm ⟨hwide, hlen⟩ c hc)).1
  · rintro (hstray | hwide | hlen) ⟨hnot, hle⟩
    · intro c hc
      by_contra hmem
      exact hnot ⟨c, hc, hmem, hstray c hc⟩
    · exact absurd hwide hnot
    · omega

/-- One septet in the default alphabet, an escape and one septet in the extension. -/
theorem length_septets_of_mem {c : Char} (hc : c ∈ gsmAlphabet) :
    (septets c).length = if c ∈ basicAlphabet then 1 else 2 := by
  have hbasic : basicAlphabet.all (fun c => decide ((septets c).length = 1)) = true := by
    decide +kernel
  have hextension : ((range 128).filterMap fun ch => (gTable2 ch).map Char.ofNat).all
      (fun c => decide (c ∈ basicAlphabet ∨ (septets c).length = 2)) = true := by
    decide +kernel
  split
  · next h => exact of_decide_eq_true (all_eq_true.mp hbasic c h)
  · next h =>
    have hmem := (mem_append.mp hc).resolve_left h
    exact (of_decide_eq_true (all_eq_true.mp hextension c hmem)).resolve_left h

theorem length_septets (hgsm : Gsm text) : (text.flatMap septets).length = septetCount text := by
  induction text with
  | nil => rfl
  | cons c text ih =>
    have hc := length_septets_of_mem (hgsm c mem_cons_self)
    have hrest := ih fun x hx => hgsm x (mem_cons_of_mem _ hx)
    rw [flatMap_cons, length_append, hc, hrest, septetCount, septetCount, map_cons, sum_cons]

/-- **A text of the GSM alphabet comes back**: it is sent in seven bits, and the packed septets are
    decoded to it.  The main loop sets `surrogate` to zero before each PDU. -/
theorem pdu2text_chktxt (hne : text ≠ []) (hgsm : Gsm text) (hlen : septetCount text ≤ 160)
    {d : Decoder} (hd : Ready d) : ∃ r ud, chktxt (bytesOf text) = .ok r ∧ r.msg = none ∧
      r.dcs = "00".toList ∧ pack (formatX 2 (r.txt.length / 2)) r.txt = .ok ud ∧
      pdu2text (formatX 2 (r.txt.length / 2) ++ ud) false d
        = .ok (1, { d with mText := some (bytesOf text) }) := by
  rw [← length_septets hgsm] at hlen
  have hseven : ∀ c ∈ text, SevenBit c := fun c hc => (gsmAlphabet_spec (hgsm c hc)).2.1
  obtain ⟨r, hr, hmsg, hdcs, htxt⟩ := chktxt_text hne
  have hzero := hdcs.mpr ⟨hseven, hlen⟩
  have hhalf : r.txt.length / 2 = (text.flatMap septets).length := by
    rw [htxt hzero, length_hex hgsm]
    omega
  obtain ⟨os, hpack, -, hos⟩ := pack_spec (septets_lt hgsm) (by omega)
  obtain ⟨hwidth, -, hvalue, -⟩ := formatX_spec (text.flatMap septets).length (by omega)
  have hread := pdu2text_packed hgsm hwidth hvalue hos [] hd
  rw [append_nil] at hread
  refine ⟨r, os.flatMap (formatX 2), hr, hmsg.mpr (.inl ⟨hseven, hlen⟩), hzero, ?_, ?_⟩
  · rw [hhalf, htxt hzero, hpack]
  · rw [hhalf, hread]

end Text

theorem pdu2text_chktxt_price : ∃ r ud, chktxt (bytesOf "5 €/h [net]".toList) = .ok r ∧
    r.msg = none ∧ r.dcs = "00".toList ∧ pack (formatX 2 (r.txt.length / 2)) r.txt = .ok ud ∧
    pdu2text (formatX 2 (r.txt.length / 2) ++ ud) false Decoder.initial
      = .ok (1, { Decoder.initial with mText := some (bytesOf "5 €/h [net]".toList) }) :=
  pdu2text_chktxt (by decide) (by decide +kernel) (by decide +kernel) ⟨rfl, rfl⟩

/-- Seventy-one brackets: more than seventy words, but 142 septets. -/
theorem chktxt_msg_eq_none_brackets :
    ∃ r, chktxt (bytesOf (replicate 71 '[')) = .ok r ∧ r.msg = none := by
  obtain ⟨r, hr, hmsg⟩ := @chktxt_msg_eq_none_iff (replicate 71 '[') (by decide)
  have hseven : ∀ c ∈ replicate 71 '[', SevenBit c := by
    intro c hc
    rw [eq_of_mem_replicate hc]
    decide
  exact ⟨r, hr, hmsg.mpr (.inl ⟨hseven, by decide +kernel⟩)⟩

theorem chktxt_gsm_hello : Gsm "Hello!".toList := by
  have hplain : "Hello!".toList.all (fun c => decide ¬ Stray c) = true := by decide
  have hseven : chktxt (bytesOf "Hello!".toList)
      = .ok ⟨none, "00".toList, "48656C6C6F21".toList⟩ := by decide +kernel
  refine (chktxt_gsm_iff (by decide)).mpr (.inl fun c hc => ?_) _ hseven rfl
  exact of_decide_eq_true (all_eq_true.mp hplain c hc)

/-- The first control character is sent as the septet of the pound sign. -/
theorem not_chktxt_gsm : ¬ ∀ text : List Char, text ≠ [] →
    ∀ r, chktxt (bytesOf text) = .ok r → r.dcs = "00".toList → Gsm text := by
  intro hclaim
  have hgsm := hclaim [Char.ofNat 1] (by decide) ⟨none, "00".toList, "01".toList⟩
    (by decide +kernel) rfl
  exact absurd hgsm (by decide +kernel)

end Rooter.SmsEncode
