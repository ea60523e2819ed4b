import Rooter.SmsLayout

/-!
# Lines of upper-case hexadecimal digits

On such a line an octet is missing only where the line has ended, so everything that
the decoder can stumble over is a question of lengths.
-/

namespace Rooter.SmsRead

open List LuaString Program

def isUpperHex (c : Char) : Bool :=
  (48 ≤ c.toNat && c.toNat ≤ 57) || (65 ≤ c.toNat && c.toNat ≤ 70)

def Hex (s : List Char) : Prop := ∀ c ∈ s, isUpperHex c = true

instance (s : List Char) : Decidable (Hex s) := decidableBAll _ s

variable {s : List Char}

theorem Hex.drop (h : Hex s) (i : Nat) : Hex (s.drop i) :=
  fun c hc => h c (mem_of_mem_drop hc)

theorem Hex.take (h : Hex s) (i : Nat) : Hex (s.take i) :=
  fun c hc => h c (mem_of_mem_take hc)

theorem Hex.subFrom (h : Hex s) (i : Nat) : Hex (subFrom s i) := h.drop _

theorem Hex.sub (h : Hex s) (i j : Nat) : Hex (sub s i j) := (h.take j).drop _

theorem Hex.append {t : List Char} (hs : Hex s) (ht : Hex t) : Hex (s ++ t) := by
  intro c hc
  rcases mem_append.mp hc with h | h
  · exact hs c h
  · exact ht c h

theorem isxdigit_of_isUpperHex {c : Char} (h : isUpperHex c = true) : isxdigit c = true := by
  simp only [isUpperHex, isxdigit, Bool.or_eq_true, Bool.and_eq_true, decide_eq_true_eq] at h ⊢
  omega

/-! ### Octets -/

theorem octet2binCheck_isSome (h : Hex s) : (octet2binCheck s).isSome = true ↔ 2 ≤ s.length := by
  match s with
  | [] => simp [octet2binCheck]
  | [c] => simp [octet2binCheck]
  | c₁ :: c₂ :: rest =>
    have h₁ := isxdigit_of_isUpperHex (h c₁ (by simp))
    have h₂ := isxdigit_of_isUpperHex (h c₂ (by simp))
    simp [octet2binCheck, h₁, h₂]

theorem octet2binCheck_eq_none (h : Hex s) : octet2binCheck s = none ↔ s.length < 2 := by
  rw [← Option.not_isSome_iff_eq_none, octet2binCheck_isSome h, Nat.not_le]

theorem octetAt_isSome (h : Hex s) (i : Nat) :
    (octetAt s i).isSome = true ↔ 2 * i + 2 ≤ s.length := by
  rw [octetAt, octet2binCheck_isSome (h.drop _), length_drop]
  omega

theorem bitAt_isSome (h : Hex s) (p : Nat) :
    (bitAt s p).isSome = true ↔ 2 * (p / 8) + 2 ≤ s.length := by
  rw [bitAt, Option.isSome_map, octetAt_isSome h]

theorem isSome_mapM {α β : Type} (f : α → Option β) (xs : List α) :
    (xs.mapM f).isSome = true ↔ ∀ x ∈ xs, (f x).isSome = true := by
  induction xs with
  | nil => simp
  | cons x xs ih =>
    rw [mapM_cons, forall_mem_cons, ← ih]
    cases f x with
    | none => simp
    | some y => cases xs.mapM f <;> simp

theorem septetAt_isSome (h : Hex s) (k : Nat) :
    (septetAt s k).isSome = true ↔ 2 * ((7 * k + 6) / 8) + 2 ≤ s.length := by
  rw [septetAt, Option.isSome_map, isSome_mapM]
  simp only [bitAt_isSome h, mem_range'_1]
  constructor
  · intro hall
    exact hall (7 * k + 6) (by omega)
  · intro hlast p hp
    omega

theorem length_unpackFrom (h : Hex s) (n : Nat) : ∀ k,
    (unpackFrom s k n).length = n ↔ n = 0 ∨ 2 * ((7 * (k + n) + 7) / 8) ≤ s.length := by
  induction n with
  | zero => intro k; simp [unpackFrom]
  | succ n ih =>
    intro k
    rw [unpackFrom]
    cases hsept : septetAt s k with
    | none =>
      have hshort : ¬ 2 * ((7 * k + 6) / 8) + 2 ≤ s.length := by
        rw [← septetAt_isSome h, hsept]
        simp
      simp only [length_nil]
      omega
    | some c =>
      have hlong : 2 * ((7 * k + 6) / 8) + 2 ≤ s.length := by
        rw [← septetAt_isSome h, hsept]
        rfl
      have hnext := ih (k + 1)
      have hk : k + 1 + n = k + n + 1 := by omega
      simp only [length_cons, Nat.add_right_cancel_iff, hnext]
      by_cases hn : n = 0
      · subst hn
        simp only [true_or, true_iff]
        right
        omega
      · omega

/-- **A text is complete when the line is long enough.** -/
theorem textComplete_iff {pdu : List Char} (h : Hex pdu) {n : Nat}
    (hn : octet2binCheck pdu = some n) :
    TextComplete pdu ↔ 2 + 2 * ((7 * n + 7) / 8) ≤ pdu.length := by
  have hlen : 2 ≤ pdu.length := (octet2binCheck_isSome h).mp (by rw [hn]; rfl)
  rw [TextComplete, hn, Option.some.injEq, textSeptets, hn, eq_comm]
  dsimp only
  rw [unpack, length_unpackFrom (h.drop 2), length_drop, Nat.zero_add]
  by_cases hz : n = 0
  · subst hz
    simp [hlen]
  · omega

/-! ### Numerals -/

theorem tonumber16_isSome_of_isxdigit (h : ∀ c ∈ s, isxdigit c = true) :
    (tonumber16 s).isSome = true ↔ s ≠ [] := by
  unfold tonumber16
  by_cases hs : s = []
  · simp [hs]
  · rw [if_neg hs, Option.isSome_map, isSome_mapM]
    simp only [ne_eq, hs, not_false_iff, iff_true]
    intro c hc
    obtain ⟨n, hn⟩ := hexValue?_of_isxdigit (h c hc)
    rw [hn]
    rfl

theorem tonumber16_isSome (h : Hex s) : (tonumber16 s).isSome = true ↔ s ≠ [] :=
  tonumber16_isSome_of_isxdigit fun c hc => isxdigit_of_isUpperHex (h c hc)

theorem octet2binCheck_append (h : 2 ≤ s.length) (t : List Char) :
    octet2binCheck (s ++ t) = octet2binCheck s := by
  match s, h with
  | c₁ :: c₂ :: rest, _ => rfl

theorem upperOctet_spec : ∀ n ≤ 36, (upperOctet n).length = 2 ∧
    octet2binCheck (upperOctet n) = some n ∧ Hex (upperOctet n) := by
  decide +kernel

theorem hexOctet_spec : ∀ n ≤ 36, (hexOctet n).length = 2 ∧
    (octet2binCheck (hexOctet n)).isSome = true := by
  decide +kernel

/-! ### The concatenation data -/

/-- The information elements of a header, behind the length octet of the user data. -/
def headerField (ud : List Char) : List Char :=
  match tonumber16 (sub (subFrom ud 3) 1 2) with
  | none => []
  | some udhl => sub (subFrom ud 3) 3 ((udhl + 1) * 2)

def concatElement : Nat → List Char → List Char
  | 0, _ => []
  | fuel + 1, x =>
      if x.length ≤ 9 then []
      else if sub x 1 4 = "0003".toList ∨ sub x 1 4 = "0804".toList then x
      else
        match tonumber16 (sub x 3 4) with
        | none => []
        | some iel => concatElement fuel (subFrom x (5 + iel * 2))

/-- The header ends inside a concatenation element with a reference of two octets. -/
def CutConcat (ud : List Char) : Prop :=
  let x := concatElement (headerField ud).length (headerField ud)
  sub x 1 4 = "0804".toList ∧ x.length = 10

instance (ud : List Char) : Decidable (CutConcat ud) := inferInstanceAs (Decidable (_ ∧ _))

theorem concatText_ok {ref part total : List Char} (href : Hex ref) (hpart : Hex part)
    (htotal : Hex total) (hne : ref ≠ []) (hne' : total ≠ []) :
    (∃ c, concatLoop.concatText ref part total = .ok (some c)) ↔ part ≠ [] := by
  obtain ⟨r, hr⟩ := Option.isSome_iff_exists.mp ((tonumber16_isSome href).mpr hne)
  obtain ⟨t, ht⟩ := Option.isSome_iff_exists.mp ((tonumber16_isSome htotal).mpr hne')
  rw [← tonumber16_isSome hpart]
  simp only [concatLoop.concatText, hr, ht]
  cases tonumber16 part <;> simp

theorem concatLoop_ok (fuel : Nat) : ∀ {x : List Char}, Hex x → ∀ c : Option (List Char),
    (∃ c', concatLoop fuel x c = .ok c') ↔
      ¬ (sub (concatElement fuel x) 1 4 = "0804".toList ∧ (concatElement fuel x).length = 10) := by
  induction fuel with
  | zero =>
    intro x _ c
    simp [concatLoop, concatElement]
  | succ fuel ih =>
    intro x hx c
    rw [concatLoop, concatElement]
    by_cases hlen : x.length ≤ 9
    · simp [hlen]
    · rw [if_neg hlen, if_neg hlen]
      have hsub : ∀ i j, i ≤ j → i ≤ 10 → 1 ≤ i → sub x i j ≠ [] := by
        intro i j hij hi h1 hnil
        have hl := congrArg length hnil
        simp only [sub, length_drop, length_take, length_nil] at hl
        omega
      by_cases h3 : sub x 1 4 = "0003".toList
      · have hne : ¬ sub x 1 4 = "0804".toList := by
          rw [h3]
          decide
        rw [if_pos h3, if_pos (Or.inl h3)]
        refine ⟨fun _ h => hne h.1, fun _ => ?_⟩
        split
        · exact ⟨_, rfl⟩
        · obtain ⟨c', hc'⟩ := (concatText_ok (hx.sub 5 6) (hx.sub 9 10) (hx.sub 7 8)
            (hsub 5 6 (by decide) (by decide) (by decide))
            (hsub 7 8 (by decide) (by decide) (by decide))).mpr
            (hsub 9 10 (by decide) (by decide) (by decide))
          exact ⟨_, hc'⟩
      · rw [if_neg h3]
        split
        · next h8 =>
          rw [if_pos (Or.inr h8)]
          have hiff := concatText_ok (hx.sub 5 8) (hx.sub 11 12) (hx.sub 9 10)
            (hsub 5 8 (by decide) (by decide) (by decide))
            (hsub 9 10 (by decide) (by decide) (by decide))
          have hpart : sub x 11 12 = [] ↔ x.length = 10 := by
            rw [← length_eq_zero_iff]
            simp only [sub, length_drop, length_take]
            omega
          constructor
          · rintro ⟨c', hc'⟩ ⟨-, hten⟩
            -- the part number is missing; the four characters compared with 0101 are two
            have hshort : ¬ sub x 9 12 = "0101".toList := by
              intro h
              have hl := congrArg length h
              simp only [sub, length_drop, length_take] at hl
              have : "0101".toList.length = 4 := rfl
              omega
            rw [if_neg hshort] at hc'
            cases c' with
            | none =>
              simp only [concatLoop.concatText] at hc'
              split at hc' <;> cases hc'
            | some c' => exact hiff.mp ⟨c', hc'⟩ (hpart.mpr hten)
          · intro hcut
            have hten : ¬ x.length = 10 := fun h => hcut ⟨h8, h⟩
            split
            · exact ⟨_, rfl⟩
            · obtain ⟨c', hc'⟩ := hiff.mpr fun h => hten (hpart.mp h)
              exact ⟨_, hc'⟩
        · next h8 =>
          rw [if_neg (not_or_intro h3 h8)]
          obtain ⟨iel, hiel⟩ := Option.isSome_iff_exists.mp ((tonumber16_isSome (hx.sub 3 4)).mpr
            (hsub 3 4 (by decide) (by decide) (by decide)))
          rw [hiel]
          exact ih (hx.subFrom _) c

/-- **The header is read without error** unless it is missing or cut. -/
theorem readUdh_hex {ud : List Char} (h : Hex ud) (d : Decoder) :
    Settles (ud.length ≤ 2 ∨ CutConcat ud) (readUdh ud d) fun p =>
      p.1 = octet2binCheck (ud.drop 2) := by
  unfold readUdh CutConcat headerField
  have hfirst : sub (subFrom ud 3) 1 2 = [] ↔ ud.length ≤ 2 := by
    rw [← length_eq_zero_iff]
    simp only [sub, subFrom, length_drop, length_take]
    omega
  cases hudhl : tonumber16 (sub (subFrom ud 3) 1 2) with
  | none =>
    left
    by_contra hlong
    have hsome := (tonumber16_isSome ((h.subFrom 3).sub 1 2)).mpr fun hne => hlong (hfirst.mp hne)
    rw [hudhl] at hsome
    cases hsome
  | some udhl =>
    have hlong : ¬ ud.length ≤ 2 := by
      intro hshort
      rw [hfirst.mpr hshort] at hudhl
      cases hudhl
    dsimp only
    have hloop := concatLoop_ok (sub (subFrom ud 3) 3 ((udhl + 1) * 2)).length
      ((h.subFrom 3).sub 3 ((udhl + 1) * 2)) d.mConcat
    rw [run_bind_of_ok (run_get d)]
    cases hconcat : concatinfo (sub (subFrom ud 3) 3 ((udhl + 1) * 2)) d.mConcat with
    | error e =>
      right
      by_contra hcut
      obtain ⟨c, hc⟩ := hloop.mpr hcut
      cases hconcat.symm.trans hc
    | ok c =>
      refine ⟨?_, rfl⟩
      rintro (hshort | hcut)
      · exact hlong hshort
      · exact hloop.mp ⟨c, hconcat⟩ hcut

end Rooter.SmsRead
