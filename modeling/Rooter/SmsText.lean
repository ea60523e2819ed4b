import Rooter.BitStream
import Rooter.Program
import Rooter.SmsRead

/-!
# What the septet loop computes

`pdu2text` fetches octets while it shifts bits into septets, and decodes each septet
as soon as it is complete.  Here the two concerns are separated: the septets are those
of the bit stream of the octets, up to the first octet that is missing, and the text
is what `Writer.put` makes of them one after the other.
-/

namespace Rooter.SmsRead

open List BitStream LuaString Program

/-! ### The septets of a digit string -/

/-- The octet number `i` of a string of hexadecimal digits. -/
def octetAt (s : List Char) (i : Nat) : Option Nat := octet2binCheck (s.drop (2 * i))

def bitAt (s : List Char) (p : Nat) : Option Bool :=
  (octetAt s (p / 8)).map fun n => n.testBit (p % 8)

def septetAt (s : List Char) (k : Nat) : Option Nat :=
  ((range' (7 * k) 7).mapM (bitAt s)).map ofBits

/-- The septets from number `k` on, at most `n`, up to a missing octet. -/
def unpackFrom (s : List Char) : Nat → Nat → List Nat
  | _, 0 => []
  | k, n + 1 =>
      match septetAt s k with
      | none => []
      | some c => c :: unpackFrom s (k + 1) n

def unpack (s : List Char) (n : Nat) : List Nat := unpackFrom s 0 n

/-- Septets written one after the other, the first `skip` ones of the message skipped. -/
def Writer.write (skip : Nat) : Nat → List Nat → Writer → Writer
  | _, [], w => w
  | k, c :: cs, w => Writer.write skip (k + 1) cs (w.put (k < skip) c)

/-! ### The bit reader -/

/-- The reader has fetched the octets that hold the bits before position `p`. -/
structure Aligned (s : List Char) (octets p : Nat) (reader : BitReader) : Prop where
  total : reader.remaining + reader.octetcounter = octets
  counter : reader.octetcounter = (p + 7) / 8
  binary : p % 8 ≠ 0 → octetAt s (p / 8) = some reader.binary

variable {pdu : List Char}

theorem octet2binCheck_subFrom (pdu : List Char) (i : Nat) :
    octet2binCheck (subFrom pdu (i * 2 + 3)) = octetAt (pdu.drop 2) i := by
  rw [octetAt, subFrom, drop_drop]
  congr 2
  omega

theorem fetch_aligned {octets p : Nat} {reader : BitReader}
    (hal : Aligned (pdu.drop 2) octets p reader) (hp : p < 8 * octets) :
    fetch pdu (p / 8) reader.remaining reader.octetcounter reader.binary
      = (octetAt (pdu.drop 2) (p / 8)).map fun i => ⟨octets - (p / 8 + 1), p / 8 + 1, i⟩ := by
  obtain ⟨remaining, octetcounter, binary⟩ := reader
  obtain ⟨htotal, hcounter, hbinary⟩ := hal
  simp only at htotal hcounter hbinary ⊢
  by_cases hmod : p % 8 = 0
  · -- a new octet begins
    obtain ⟨r, rfl⟩ : ∃ r, remaining = r + 1 := ⟨remaining - 1, by omega⟩
    have hc : octetcounter = p / 8 := by omega
    rw [fetch, if_pos (by omega), octet2binCheck_subFrom, hc]
    cases octetAt (pdu.drop 2) (p / 8) with
    | none => rfl
    | some i =>
      have hr : octets - (p / 8 + 1) = r := by omega
      simp only [Option.map_some, hr]
      cases r with
      | zero => rfl
      | succ r => rw [fetch, if_neg (by omega)]
  · have hc : octetcounter = p / 8 + 1 := by omega
    have hr : remaining = octets - (p / 8 + 1) := by omega
    rw [hbinary hmod, Option.map_some, hr, hc]
    cases octets - (p / 8 + 1) with
    | zero => rfl
    | succ r => rw [fetch, if_neg (by omega)]

theorem aligned_succ {s : List Char} {octets p i : Nat} (hp : p < 8 * octets)
    (hi : octetAt s (p / 8) = some i) :
    Aligned s octets (p + 1) ⟨octets - (p / 8 + 1), p / 8 + 1, i⟩ where
  total := by simp only; omega
  counter := by simp only; omega
  binary := by
    intro hmod
    have : (p + 1) / 8 = p / 8 := by omega
    rw [this]
    exact hi

theorem shift_bit {c : Nat} (hc : c < 128) (b i : Nat) :
    (if 0 < b &&& 2 ^ i then c ||| 128 else c) / 2 &&& 127 = c / 2 + 64 * (b.testBit i).toNat := by
  have hpos : 0 < b &&& 2 ^ i ↔ b.testBit i = true := by
    rw [Nat.and_two_pow]
    cases b.testBit i with
    | false => simp
    | true => exact iff_of_true (by rw [Bool.toNat_true, Nat.one_mul]; exact Nat.two_pow_pos i) rfl
  have hone : ∀ c < 128, (c ||| 128) / 2 &&& 127 = c / 2 + 64 := by decide
  have hzero : ∀ c < 128, c / 2 &&& 127 = c / 2 := by decide
  cases hb : b.testBit i with
  | false => rw [if_neg (by rw [hpos, hb]; decide), hzero c hc]; rfl
  | true => rw [if_pos (hpos.mpr hb), hone c hc]; rfl

theorem shift_sum {c n : Nat} (hn : n + 1 ≤ 7) (b : Bool) (v : Nat) :
    (c / 2 + 64 * b.toNat) / 2 ^ n + 2 ^ (7 - n) * v
      = c / 2 ^ (n + 1) + 2 ^ (7 - (n + 1)) * (b.toNat + 2 * v) := by
  have hpow : 2 ^ (7 - n) = 2 * 2 ^ (7 - (n + 1)) := by
    rw [← Nat.pow_succ']
    congr 1
    omega
  have h64 : 64 * b.toNat = 2 ^ n * (2 ^ (7 - (n + 1)) * b.toNat) := by
    rw [← Nat.mul_assoc, ← Nat.pow_add]
    have : n + (7 - (n + 1)) = 6 := by omega
    rw [this]
  rw [h64, Nat.add_mul_div_left _ _ (Nat.two_pow_pos n), Nat.div_div_eq_div_mul, ← Nat.pow_succ',
    hpow, Nat.mul_add, Nat.mul_assoc, Nat.mul_left_comm 2, Nat.add_assoc]

theorem septetLoop_eq (pdu : List Char) (octets n : Nat) : ∀ {p c : Nat} {reader : BitReader},
    Aligned (pdu.drop 2) octets p reader → p + n ≤ 8 * octets → c < 128 → n ≤ 7 →
      match (range' p n).mapM (bitAt (pdu.drop 2)) with
      | none => septetLoop pdu n p c reader = none
      | some bs => ∃ reader', Aligned (pdu.drop 2) octets (p + n) reader' ∧
          septetLoop pdu n p c reader = some (c / 2 ^ n + 2 ^ (7 - n) * ofBits bs, reader') := by
  induction n with
  | zero =>
    intro p c reader hal _ _ _
    refine ⟨reader, hal, ?_⟩
    simp [septetLoop, ofBits]
  | succ n ih =>
    intro p c reader hal hp hc hn
    have hlt : p < 8 * octets := by omega
    rw [range'_succ, mapM_cons, septetLoop, fetch_aligned hal hlt]
    cases hi : octetAt (pdu.drop 2) (p / 8) with
    | none =>
      have hbit : bitAt (pdu.drop 2) p = none := by simp [bitAt, hi]
      simp [hbit]
    | some i =>
      have hbit : bitAt (pdu.drop 2) p = some (i.testBit (p % 8)) := by simp [bitAt, hi]
      have hshift := shift_bit hc i (p % 8)
      have hb : (i.testBit (p % 8)).toNat ≤ 1 := Bool.toNat_le _
      have hrest := ih (aligned_succ hlt hi) (by omega)
        (show c / 2 + 64 * (i.testBit (p % 8)).toNat < 128 by omega) (by omega)
      simp only [hbit, Option.map_some, hshift]
      cases hbs : (range' (p + 1) n).mapM (bitAt (pdu.drop 2)) with
      | none =>
        rw [hbs] at hrest
        simpa using hrest
      | some bs =>
        rw [hbs] at hrest
        obtain ⟨reader', hal', hloop⟩ := hrest
        refine ⟨reader', by rw [← Nat.add_assoc, Nat.add_right_comm]; exact hal', ?_⟩
        rw [hloop, ofBits, shift_sum hn]

/-- **The character loop.**  The septets that are there are decoded in their order, and
    the flag says whether all were there. -/
theorem textLoop_eq (pdu : List Char) (skip octets n : Nat) :
    ∀ {k : Nat} {reader : BitReader} {w : Writer},
      Aligned (pdu.drop 2) octets (7 * k) reader → 7 * (k + n) ≤ 8 * octets →
        textLoop pdu skip n k reader w
          = (decide ((unpackFrom (pdu.drop 2) k n).length = n),
              w.write skip k (unpackFrom (pdu.drop 2) k n)) := by
  induction n with
  | zero => intro k reader w _ _; rfl
  | succ n ih =>
    intro k reader w hal hle
    have hseptet := septetLoop_eq pdu octets 7 hal (by omega) (show 0 < 128 by decide) (le_refl 7)
    rw [textLoop, unpackFrom, septetAt, Nat.mul_comm k 7]
    cases hbs : (range' (7 * k) 7).mapM (bitAt (pdu.drop 2)) with
    | none =>
      rw [hbs] at hseptet
      simp [hseptet, Writer.write]
    | some bs =>
      rw [hbs] at hseptet
      obtain ⟨reader', hal', hloop⟩ := hseptet
      have hal'' : Aligned (pdu.drop 2) octets (7 * (k + 1)) reader' := hal'
      simp only [hloop, Option.map_some]
      rw [ih hal'' (by omega), Writer.write]
      simp

theorem aligned_zero (s : List Char) (octets : Nat) : Aligned s octets 0 ⟨octets, 0, 0⟩ where
  total := rfl
  counter := rfl
  binary := absurd rfl

theorem textLoop_start (pdu : List Char) (skip n : Nat) (w : Writer) :
    textLoop pdu skip n 0 ⟨(n * 7 + 7) / 8, 0, 0⟩ w
      = (decide ((unpack (pdu.drop 2) n).length = n), w.write skip 0 (unpack (pdu.drop 2) n)) :=
  textLoop_eq pdu skip ((n * 7 + 7) / 8) n (aligned_zero _ _) (by omega)

/-! ### `pdu2text` and `pdu2binary` -/

/-- The septets that `pdu2text` decodes, and whether they are all there. -/
def textSeptets (pdu : List Char) : List Nat :=
  match octet2binCheck pdu with
  | none => []
  | some n => unpack (pdu.drop 2) n

theorem length_of_mapM {α β : Type} {f : α → Option β} {xs : List α} : ∀ {ys : List β},
    xs.mapM f = some ys → ys.length = xs.length := by
  induction xs with
  | nil =>
    intro ys h
    cases h
    rfl
  | cons x xs ih =>
    intro ys h
    rw [mapM_cons] at h
    obtain ⟨y, -, hrest⟩ := Option.bind_eq_some_iff.mp h
    obtain ⟨zs, hzs, hys⟩ := Option.bind_eq_some_iff.mp hrest
    cases hys
    rw [length_cons, length_cons, ih hzs]

theorem unpackFrom_lt (s : List Char) (n : Nat) : ∀ k, ∀ x ∈ unpackFrom s k n, x < 128 := by
  induction n with
  | zero =>
    intro k x hx
    cases hx
  | succ n ih =>
    intro k x hx
    unfold unpackFrom at hx
    cases hc : septetAt s k with
    | none => simp [hc] at hx
    | some c =>
      simp only [hc, mem_cons] at hx
      rcases hx with rfl | hx
      · obtain ⟨bs, hbs, rfl⟩ := Option.map_eq_some_iff.mp hc
        have hlen : bs.length = 7 := (length_of_mapM hbs).trans length_range'
        have hlt := ofBits_lt bs
        rwa [hlen] at hlt
      · exact ih (k + 1) x hx

theorem textSeptets_lt (pdu : List Char) : ∀ x ∈ textSeptets pdu, x < 128 := by
  unfold textSeptets
  split
  · intro x hx
    cases hx
  · exact unpackFrom_lt _ _ 0

def TextComplete (pdu : List Char) : Prop :=
  octet2binCheck pdu = some (textSeptets pdu).length

instance (pdu : List Char) : Decidable (TextComplete pdu) := inferInstanceAs (Decidable (_ = _))

variable {d d' : Decoder} {withUdh : Bool} {result : Int}

theorem readUdh_frame {udhsize : Option Nat} (h : readUdh pdu d = .ok (udhsize, d')) :
    udhsize = octet2binCheck (subFrom pdu 3) ∧ ∃ c, d' = { d with mConcat := c } := by
  unfold readUdh at h
  cases hudhl : tonumber16 (sub (subFrom pdu 3) 1 2) with
  | none => simp [hudhl] at h
  | some udhl =>
    simp only [hudhl] at h
    rw [run_bind_of_ok (run_get d)] at h
    cases hconcat : concatinfo (sub (subFrom pdu 3) 3 ((udhl + 1) * 2)) d.mConcat with
    | error e =>
      rw [hconcat] at h
      cases h
    | ok c =>
      rw [hconcat, run_bind_of_ok (run_lift_ok c d)] at h
      cases h
      exact ⟨rfl, c, rfl⟩

theorem skipCharacters_frame {skip : Nat} (h : skipCharacters pdu withUdh d = .ok (skip, d')) :
    ∃ c, d' = { d with mConcat := c } := by
  cases withUdh with
  | false =>
    cases h
    exact ⟨d.mConcat, rfl⟩
  | true =>
    obtain ⟨udhsize, d₁, hread, hrest⟩ := run_bind_eq_ok.mp h
    obtain ⟨-, c, rfl⟩ := readUdh_frame hread
    refine ⟨c, ?_⟩
    cases udhsize <;> cases hrest <;> rfl

theorem skipOctets_frame {skip : Option Nat} (h : skipOctets pdu withUdh d = .ok (skip, d')) :
    ∃ c, d' = { d with mConcat := c } := by
  cases withUdh with
  | false =>
    cases h
    exact ⟨d.mConcat, rfl⟩
  | true =>
    obtain ⟨udhsize, d₁, hread, hrest⟩ := run_bind_eq_ok.mp h
    obtain ⟨-, c, rfl⟩ := readUdh_frame hread
    refine ⟨c, ?_⟩
    cases udhsize <;> cases hrest <;> rfl

theorem pdu2text_run {n : Nat} (hn : octet2binCheck pdu = some n) (withUdh : Bool) (d : Decoder) :
    pdu2text pdu withUdh d
      = match skipCharacters pdu withUdh { d with mText := some [] } with
        | .error e => .error e
        | .ok (skip, d') =>
            let w := Writer.write skip 0 (textSeptets pdu) ⟨[], d'.surrogate, d'.gTableNbr⟩
            .ok (if TextComplete pdu then 1 else -2,
              { d' with
                mText := some w.text, surrogate := w.surrogate, gTableNbr := w.table }) := by
  have hseptets : textSeptets pdu = unpack (pdu.drop 2) n := by simp [textSeptets, hn]
  have hcomplete : TextComplete pdu ↔ (unpack (pdu.drop 2) n).length = n := by
    rw [TextComplete, hn, hseptets, Option.some.injEq]
    exact eq_comm
  unfold pdu2text
  rw [run_bind_of_ok (run_modify _ d), hn]
  dsimp only
  cases hskip : skipCharacters pdu withUdh { d with mText := some [] } with
  | error e => rw [run_bind_of_error hskip]
  | ok p =>
    obtain ⟨skip, d'⟩ := p
    rw [run_bind_of_ok hskip, run_bind_of_ok (run_get d'), textLoop_start]
    simp only [hseptets, hcomplete, decide_eq_true_eq]
    rfl

/-- `pdu2text` sets the text, the part of a long message and the state of the two tables. -/
theorem pdu2text_frame (h : pdu2text pdu withUdh d = .ok (result, d')) :
    (0 ≤ result ↔ TextComplete pdu) ∧ ∃ skip c,
      let w := Writer.write skip 0 (textSeptets pdu) ⟨[], d.surrogate, d.gTableNbr⟩
      d' = { d with
        mText := some w.text, mConcat := c, surrogate := w.surrogate, gTableNbr := w.table } := by
  cases hn : octet2binCheck pdu with
  | none =>
    have hseptets : textSeptets pdu = [] := by simp [textSeptets, hn]
    unfold pdu2text at h
    rw [hn] at h
    cases h
    rw [hseptets]
    exact ⟨by simp [TextComplete, hn], 0, d.mConcat, rfl⟩
  | some n =>
    rw [pdu2text_run hn] at h
    cases hskip : skipCharacters pdu withUdh { d with mText := some [] } with
    | error e =>
      rw [hskip] at h
      cases h
    | ok p =>
      obtain ⟨skip, d₁⟩ := p
      obtain ⟨c, rfl⟩ := skipCharacters_frame hskip
      rw [hskip] at h
      cases h
      exact ⟨by split <;> simp_all, skip, c, rfl⟩

theorem pdu2binary_frame (h : pdu2binary pdu withUdh d = .ok (result, d')) : ∃ skip n c,
      let r := binaryLoop pdu skip d.mAlphabet n 0 0 [] d.surrogate
      d' = { d with mText := some r.2.1, mConcat := c, surrogate := r.2.2 } := by
  unfold pdu2binary at h
  rw [run_bind_of_ok (run_modify _ d)] at h
  cases hn : octet2binCheck pdu with
  | none =>
    rw [hn] at h
    cases h
    exact ⟨0, 0, d.mConcat, rfl⟩
  | some octets =>
    rw [hn] at h
    obtain ⟨skip, d₁, hskip, hrest⟩ := run_bind_eq_ok.mp h
    obtain ⟨c, rfl⟩ := skipOctets_frame hskip
    cases skip with
    | none =>
      cases hrest
      exact ⟨0, 0, c, rfl⟩
    | some skip =>
      cases hrest
      exact ⟨skip, octets - skip, c, rfl⟩

def escapeAfter (septets : List Nat) (table : TableNbr) : TableNbr :=
  septets.foldl (fun table c => (gsm2byte c table).2) table

theorem table_write (skip : Nat) (cs : List Nat) : ∀ (k : Nat) (w : Writer),
    (Writer.write skip k cs w).table = escapeAfter cs w.table := by
  induction cs with
  | nil => intro k w; rfl
  | cons c cs ih =>
    intro k w
    have hput : (w.put (k < skip) c).table = (gsm2byte c w.table).2 := by
      unfold Writer.put
      dsimp only
      split <;> rfl
    rw [Writer.write, ih, hput, escapeAfter, escapeAfter, foldl_cons]

theorem pdu2text_table (h : pdu2text pdu withUdh d = .ok (result, d')) :
    d'.gTableNbr = escapeAfter (textSeptets pdu) d.gTableNbr := by
  obtain ⟨-, skip, c, rfl⟩ := pdu2text_frame h
  exact table_write _ _ _ _

theorem pdu2binary_table (h : pdu2binary pdu withUdh d = .ok (result, d')) :
    d'.gTableNbr = d.gTableNbr := by
  obtain ⟨skip, n, c, rfl⟩ := pdu2binary_frame h
  rfl

end Rooter.SmsRead
