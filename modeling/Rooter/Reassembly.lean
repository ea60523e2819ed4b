import Rooter.Merge

/-!
# What `merge.lua` writes

Every stored message should be listed in one record, parts of different messages
should not be mixed, and a complete message should come out whole.  All three fail
on some inputs.  The script stops at a reference number without any part in the
range `1..msgmax` of its lowest part (`Startable` fails): nothing behind is written.
And parts belong together by reference number alone, whoever sent them.
-/

namespace Rooter.Merge

open List Numeral LuaString MessageFile Grouping

/-! ### Notions on the stored messages -/

def slotNumber (m : Message) : Nat := (decimal? m.slot).getD 0

def totalOf (p : Part) : Nat := (decimal? p.msgmax).getD 0

namespace Parsed

variable (s : Parsed)

def parts (msgnum : List Char) : List Message :=
  s.messages.filter fun m => msgnumOf m = some msgnum

/-- `m` is the part at the lowest slot of its reference number. -/
structure First (m : Message) (p : Part) : Prop where
  mem : m ∈ s.messages
  part : m.part = some p
  least : ∀ m' ∈ s.parts p.msgnum, slotNumber m ≤ slotNumber m'

/-- Some stored part of the reference number has an order in the range that the lowest
    part announces. -/
def Startable (p : Part) : Prop :=
  ∃ m ∈ s.parts p.msgnum, ∃ q ∈ m.part, ∃ j, 1 ≤ j ∧ j ≤ totalOf p ∧ q.msgord = decimal j

end Parsed

theorem exists_of_forall₂ {α β : Type} {R : α → β → Prop} {as : List α} {bs : List β}
    (h : List.Forall₂ R as bs) {a : α} (ha : a ∈ as) : ∃ b ∈ bs, R a b := by
  induction h with
  | nil => cases ha
  | cons hab _ ih =>
    rcases mem_cons.mp ha with rfl | ha
    · exact ⟨_, mem_cons_self, hab⟩
    · obtain ⟨b, hb, hR⟩ := ih ha
      exact ⟨b, mem_cons_of_mem _ hb, hR⟩

/-! ### One group -/

theorem foldl_assembleStep (msgbuild shortmsg : Table (List Char)) (js : List Nat) :
    ∀ a : Assembly, js.foldl (assembleStep msgbuild shortmsg) a
      = ⟨a.msg ++ js.flatMap fun j => (msgbuild (decimal j)).getD [],
        a.short.or (js.findSome? fun j =>
          (msgbuild (decimal j)).bind fun _ => shortmsg (decimal j)),
        a.mflg || js.any fun j => (msgbuild (decimal j)).isNone⟩ := by
  induction js with
  | nil => intro a; simp
  | cons j js ih =>
    intro a
    rw [foldl_cons, ih, assembleStep]
    cases hb : msgbuild (decimal j) with
    | none => simp [hb]
    | some text =>
      cases hs : shortmsg (decimal j) with
      | none => simp [hb, hs]
      | some short => cases a.short <;> simp [hb, hs]

theorem foldl_fill (field : Message → List Char) (ms : List Message) :
    ∀ table : Table (List Char), ∀ x : List Char,
      ((∃ m ∈ ms, ∃ p ∈ m.part, p.msgord = x ∧ ms.foldl (fill field) table x = some (field m)) ∨
        ((∀ m ∈ ms, ∀ p ∈ m.part, p.msgord ≠ x) ∧ ms.foldl (fill field) table x = table x)) := by
  induction ms with
  | nil => intro table x; right; simp
  | cons m ms ih =>
    intro table x
    rw [foldl_cons]
    rcases ih (fill field table m) x with ⟨m', hm', p, hp, hord, hval⟩ | ⟨hnone, hval⟩
    · exact .inl ⟨m', mem_cons_of_mem _ hm', p, hp, hord, hval⟩
    · cases hpart : m.part with
      | none =>
        right
        refine ⟨?_, by rw [hval, fill, hpart]⟩
        intro m' hm'
        rcases mem_cons.mp hm' with rfl | hm'
        · simp [hpart]
        · exact hnone m' hm'
      | some p =>
        by_cases hx : p.msgord = x
        · refine .inl ⟨m, mem_cons_self, p, hpart, hx, ?_⟩
          rw [hval, fill, hpart]
          exact hx ▸ Function.update_self _ _ _
        · right
          refine ⟨?_, ?_⟩
          · intro m' hm'
            rcases mem_cons.mp hm' with rfl | hm'
            · intro q hq
              rw [hpart] at hq
              cases hq
              exact hx
            · exact hnone m' hm'
          · rw [hval, fill, hpart]
            exact Function.update_of_ne (Ne.symm hx) _ _

theorem tableOf_cases (field : Message → List Char) (ms : List Message) (x : List Char) :
    (∃ m ∈ ms, ∃ p ∈ m.part, p.msgord = x ∧ tableOf field ms x = some (field m)) ∨
      ((∀ m ∈ ms, ∀ p ∈ m.part, p.msgord ≠ x) ∧ tableOf field ms x = none) :=
  foldl_fill field ms _ x

theorem isSome_tableOf {field : Message → List Char} {ms : List Message} {x : List Char} :
    (tableOf field ms x).isSome = true ↔ ∃ m ∈ ms, ∃ p ∈ m.part, p.msgord = x := by
  rcases tableOf_cases field ms x with ⟨m, hm, p, hp, hord, hval⟩ | ⟨hnone, hval⟩
  · simp only [hval, Option.isSome_some, true_iff]
    exact ⟨m, hm, p, hp, hord⟩
  · simp only [hval, Option.isSome_none, Bool.false_eq_true, false_iff]
    rintro ⟨m, hm, p, hp, hord⟩
    exact hnone m hm p hp hord

theorem tableOf_eq {field : Message → List Char} {ms : List Message} {m : Message} {p : Part}
    (hm : m ∈ ms) (hp : m.part = some p)
    (hsame : ∀ m' ∈ ms, ∀ p' ∈ m'.part, p'.msgord = p.msgord → field m' = field m) :
    tableOf field ms p.msgord = some (field m) := by
  rcases tableOf_cases field ms p.msgord with ⟨m', hm', p', hp', hord, hval⟩ | ⟨hnone, -⟩
  · rw [hval, hsame m' hm' p' hp' hord]
  · exact absurd rfl (hnone m hm p hp)

def orders (n : Nat) : List Nat := (range n).map (· + 1)

theorem mem_orders {n j : Nat} : j ∈ orders n ↔ 1 ≤ j ∧ j ≤ n := by
  simp only [orders, mem_map, mem_range]
  constructor
  · rintro ⟨i, hi, rfl⟩
    omega
  · rintro ⟨h1, hn⟩
    exact ⟨j - 1, by omega, by omega⟩

theorem assemble_eq (n : Nat) (msgbuild shortmsg : Table (List Char)) :
    assemble n msgbuild shortmsg
      = ⟨(orders n).flatMap fun j => (msgbuild (decimal j)).getD [],
        (orders n).findSome? fun j =>
          (msgbuild (decimal j)).bind fun _ => shortmsg (decimal j),
        (orders n).any fun j => (msgbuild (decimal j)).isNone⟩ := by
  rw [assemble, foldl_assembleStep]
  simp [orders]

namespace Group

variable (g : Group)

/-- The first preview among the orders `1..n`. -/
def preview (n : Nat) : Option (List Char) :=
  (orders n).findSome? fun j => (tableOf Message.msg g.all (decimal j)).bind fun _ =>
    tableOf Message.short g.all (decimal j)

/-- The texts of the orders `1..n`, a missing one being empty. -/
def body (n : Nat) : List Char :=
  (orders n).flatMap fun j => (tableOf Message.msg g.all (decimal j)).getD []

def Complete (n : Nat) : Prop := ∀ j ∈ orders n, ∃ m ∈ g.all, ∃ p ∈ m.part, p.msgord = decimal j

variable {g}

theorem isSome_preview {n : Nat} : (g.preview n).isSome = true ↔
    ∃ j ∈ orders n, ∃ m ∈ g.all, ∃ p ∈ m.part, p.msgord = decimal j := by
  rw [preview, isSome_findSome?]
  simp only [any_eq_true, Option.isSome_bind, Option.any_eq_true_iff_get]
  constructor
  · rintro ⟨j, hj, hmsg, -⟩
    exact ⟨j, hj, isSome_tableOf.mp hmsg⟩
  · rintro ⟨j, hj, hm⟩
    exact ⟨j, hj, isSome_tableOf.mpr hm, isSome_tableOf.mpr hm⟩

theorem emit_single (hp : g.head.part = none) : emit g = .ok (single g.head) := by
  rw [emit, hp]

theorem emit_parts {p : Part} (hp : g.head.part = some p)
    (hmax : (decimal? p.msgmax).isSome = true) :
    (g.preview (totalOf p) = none ∧ ∃ stop, emit g = .error stop) ∨
      ∃ short record, g.preview (totalOf p) = some short ∧ emit g = .ok record ∧
        record.slots = g.all.map Message.slot ∧ record.phone = g.head.phone ∧
        (g.Complete (totalOf p) → record.msg = trimEnd (g.body (totalOf p)) ∧
          record.short = completeShort short (g.body (totalOf p))) := by
  obtain ⟨n, hn⟩ := Option.isSome_iff_exists.mp hmax
  have htotal : totalOf p = n := by simp [totalOf, hn]
  rw [htotal]
  simp only [emit, hp, finish, hn, assemble_eq]
  cases hshort : g.preview n with
  | none =>
    left
    rw [preview] at hshort
    simp [hshort]
  | some short =>
    right
    have hshort' := hshort
    rw [preview] at hshort'
    simp only [hshort']
    refine ⟨short, _, rfl, rfl, rfl, rfl, fun hcomplete => ?_⟩
    have hmflg : ((orders n).any fun j =>
        (tableOf Message.msg g.all (decimal j)).isNone) = false := by
      rw [any_eq_false]
      intro j hj
      have hsome : (tableOf Message.msg g.all (decimal j)).isSome = true :=
        isSome_tableOf.mpr (hcomplete j hj)
      simpa [Option.isSome_iff_ne_none] using hsome
    simp [hmflg, body]

end Group

/-! ### The groups of the stored messages -/

namespace Parsed

variable {s : Parsed} {h : Nat} {m : Message} {g : Group}

theorem slotNumber_of_item (hm : s.item h = some m) : slotNumber m = h := by
  simp [slotNumber, (item_eq_some.mp hm).2]

theorem item_slotNumber (hm : m ∈ s.messages) : s.item (slotNumber m) = some m := by
  obtain ⟨n, hn⟩ := s.decimal_slot m hm
  rw [item_eq_some]
  exact ⟨hm, by simp [slotNumber, hn]⟩

theorem isSome_item (hm : m ∈ s.messages) : (s.item (slotNumber m)).isSome = true := by
  rw [item_slotNumber hm]
  rfl

theorem exists_groupAt (hitem : (s.item h).isSome = true) : ∃ g, s.groupAt h = some g := by
  rw [groupAt, ← Option.isSome_iff_exists, Option.isSome_map]
  exact hitem

theorem eq_of_slot {m' : Message} (hm : m ∈ s.messages) (hm' : m' ∈ s.messages)
    (hslot : m.slot = m'.slot) : m = m' :=
  inj_on_of_nodup_map s.nodup_slot hm hm' hslot

theorem mem_parts {r : List Char} : m ∈ s.parts r ↔ m ∈ s.messages ∧ msgnumOf m = some r := by
  simp [parts]

section

variable (hg : s.groupAt h = some g)

include hg

theorem slots_groupAt :
    g.all.map Message.slot = (members s.item msgnumOf s.limit h).map decimal := by
  rw [groupAt, Option.map_eq_some_iff] at hg
  obtain ⟨m, hm, rfl⟩ := hg
  have hrest : ∀ js : List Nat, (∀ j ∈ js, (s.item j).isSome = true) →
      (js.filterMap s.item).map Message.slot = js.map decimal := by
    intro js hjs
    induction js with
    | nil => rfl
    | cons j js ih =>
      obtain ⟨mj, hmj⟩ := Option.isSome_iff_exists.mp (hjs j mem_cons_self)
      rw [filterMap_cons_some hmj, map_cons, map_cons,
        ih fun k hk => hjs k (mem_cons_of_mem _ hk), (item_eq_some.mp hmj).2]
  rw [Group.all, members, map_cons, map_cons, (item_eq_some.mp hm).2,
    hrest _ fun j hj => (mem_followers.mp hj).2.2.isSome]

theorem mem_groupAt :
    m ∈ g.all ↔ m ∈ s.messages ∧ slotNumber m ∈ members s.item msgnumOf s.limit h := by
  rw [groupAt, Option.map_eq_some_iff] at hg
  obtain ⟨m₀, hm₀, rfl⟩ := hg
  rw [Group.all, members, mem_cons, mem_cons, mem_filterMap]
  constructor
  · rintro (rfl | ⟨j, hj, hm⟩)
    · exact ⟨(item_eq_some.mp hm₀).1, .inl (slotNumber_of_item hm₀)⟩
    · rw [slotNumber_of_item hm]
      exact ⟨(item_eq_some.mp hm).1, .inr hj⟩
  · rintro ⟨hm, hnum | hnum⟩
    · left
      have := (item_slotNumber hm).symm.trans (hnum ▸ hm₀)
      exact Option.some.inj this
    · exact .inr ⟨_, hnum, item_slotNumber hm⟩

theorem head_groupAt : s.item h = some g.head := by
  rw [groupAt, Option.map_eq_some_iff] at hg
  obtain ⟨m, hm, rfl⟩ := hg
  exact hm

theorem all_single (hp : g.head.part = none) : g.all = [g.head] := by
  have hm := head_groupAt hg
  rw [groupAt, Option.map_eq_some_iff] at hg
  obtain ⟨m, -, rfl⟩ := hg
  have hnone : followers s.item msgnumOf s.limit h = [] := by
    rw [eq_nil_iff_forall_not_mem]
    intro j hj
    exact not_linked_of_single hm hp (mem_followers.mp hj).2.2
  simp [Group.all, hnone]

/-- The group of a head with part data is everything of its reference number. -/
theorem mem_all_iff (hhead : IsHead s.item msgnumOf h) {p : Part} (hp : g.head.part = some p) :
    m ∈ g.all ↔ m ∈ s.parts p.msgnum := by
  have hm₀ := head_groupAt hg
  rw [mem_groupAt hg, mem_parts]
  refine and_congr_right fun hm => ?_
  have hkey : Linked s.item msgnumOf h (slotNumber m) ↔ msgnumOf m = some p.msgnum := by
    rw [linked_iff hm₀ hp, item_slotNumber hm, picked]
    simp
  rw [mem_members]
  constructor
  · rintro (heq | ⟨-, -, hl⟩)
    · have : m = g.head := Option.some.inj ((item_slotNumber hm).symm.trans (heq ▸ hm₀))
      simp [this, msgnumOf, hp]
    · exact hkey.mp hl
  · intro hnum
    have hl := hkey.mpr hnum
    rcases Nat.lt_trichotomy h (slotNumber m) with hlt | heq | hgt
    · exact .inr ⟨lt_limit hl.isSome, hlt, hl⟩
    · exact .inl heq.symm
    · exact absurd hl.symm (hhead.2 _ hgt)

end

theorem first_iff {p : Part} : s.First m p ↔
    ∃ h g, IsHead s.item msgnumOf h ∧ s.groupAt h = some g ∧ g.head = m ∧ m.part = some p := by
  constructor
  · rintro ⟨hm, hp, hleast⟩
    have hitem := item_slotNumber hm
    obtain ⟨g, hg⟩ := exists_groupAt (isSome_item hm)
    have hgm : g.head = m := Option.some.inj ((head_groupAt hg).symm.trans hitem)
    refine ⟨slotNumber m, g, ⟨by simp [hitem], fun h hlt hl => ?_⟩, hg, hgm, hp⟩
    -- a linked position below would hold a part of the same reference number
    obtain ⟨m', hm'⟩ := Option.isSome_iff_exists.mp hl.symm.isSome
    have hnum : msgnumOf m' = some p.msgnum := by
      simpa [keyAt, hm', hitem, msgnumOf, hp] using hl.2
    have hle := hleast m' (mem_parts.mpr ⟨(item_eq_some.mp hm').1, hnum⟩)
    rw [slotNumber_of_item hm'] at hle
    omega
  · rintro ⟨h, g, hhead, hg, rfl, hp⟩
    have hm₀ := head_groupAt hg
    refine ⟨(item_eq_some.mp hm₀).1, hp, fun m' hm' => ?_⟩
    have hmem := (mem_groupAt hg).mp ((mem_all_iff hg hhead hp).mpr hm')
    rw [slotNumber_of_item hm₀]
    rcases mem_members.mp hmem.2 with heq | ⟨-, hlt, -⟩
    · omega
    · omega

theorem numeric_head (hg : s.groupAt h = some g) {p : Part} (hp : g.head.part = some p) :
    (decimal? p.msgmax).isSome = true :=
  s.numeric g.head (item_eq_some.mp (head_groupAt hg)).1 p hp

/-- **A group is written unless it is the group of a reference number without a part in range.** -/
theorem emit_ok_iff (hhead : IsHead s.item msgnumOf h) (hg : s.groupAt h = some g) :
    (∃ record, emit g = .ok record) ↔ ∀ p ∈ g.head.part, s.Startable p := by
  cases hp : g.head.part with
  | none => simp [Group.emit_single hp]
  | some p =>
    have hstart : s.Startable p ↔ (g.preview (totalOf p)).isSome = true := by
      rw [Group.isSome_preview]
      simp only [Startable, mem_orders, ← mem_all_iff hg hhead hp]
      constructor
      · rintro ⟨m, hm, q, hq, j, h1, hn, hord⟩
        exact ⟨j, ⟨h1, hn⟩, m, hm, q, hq, hord⟩
      · rintro ⟨j, ⟨h1, hn⟩, m, hm, q, hq, hord⟩
        exact ⟨m, hm, q, hq, j, h1, hn, hord⟩
    simp only [Option.mem_def, Option.some.injEq, forall_eq', hstart]
    rcases Group.emit_parts hp (numeric_head hg hp) with
      ⟨hnone, stop, hstop⟩ | ⟨short, record, hsome, hok, -⟩
    · simp [hnone, hstop]
    · simp [hsome, hok]

/-! ### The records in the order of their heads -/

def Writes (s : Parsed) (h : Nat) (record : Record) : Prop :=
  ∃ g, s.groupAt h = some g ∧ emit g = .ok record

variable {r : Record} {done : List Nat} {records : List Record}

theorem Writes.unique {r' : Record} (hr : s.Writes h r) (hr' : s.Writes h r') : r = r' := by
  obtain ⟨g, hg, hok⟩ := hr
  obtain ⟨g', hg', hok'⟩ := hr'
  cases hg.symm.trans hg'
  cases hok.symm.trans hok'
  rfl

theorem Writes.slots (hr : s.Writes h r) :
    r.slots = (members s.item msgnumOf s.limit h).map decimal := by
  obtain ⟨g, hg, hok⟩ := hr
  rw [← slots_groupAt hg]
  cases hp : g.head.part with
  | none =>
    rw [Group.emit_single hp] at hok
    cases hok
    rw [all_single hg hp]
    rfl
  | some p =>
    rcases Group.emit_parts hp (numeric_head hg hp) with
      ⟨-, stop, hstop⟩ | ⟨short, record, -, hok', hslots, -⟩
    · rw [hstop] at hok
      cases hok
    · rw [hok'] at hok
      cases hok
      exact hslots

theorem emitAll_split (hs : List Nat) (hsome : ∀ h ∈ hs, (s.item h).isSome = true) :
    ∃ done todo, hs = done ++ todo ∧
      List.Forall₂ s.Writes done (emitAll (hs.filterMap s.groupAt)).records ∧
      ∀ h ∈ todo.head?, ∀ r, ¬ s.Writes h r := by
  induction hs with
  | nil => exact ⟨[], [], rfl, .nil, by simp⟩
  | cons h hs ih =>
    obtain ⟨g, hg⟩ := exists_groupAt (hsome h mem_cons_self)
    rw [filterMap_cons_some hg, emitAll]
    cases hemit : emit g with
    | error stop =>
      refine ⟨[], h :: hs, rfl, .nil, ?_⟩
      intro h' hh' r hw
      cases Option.some.inj hh'
      obtain ⟨g', hg', hok⟩ := hw
      cases hg.symm.trans hg'
      rw [hemit] at hok
      cases hok
    | ok record =>
      obtain ⟨done, todo, rfl, hall, hstop⟩ := ih fun h' hh' =>
        hsome h' (mem_cons_of_mem _ hh')
      exact ⟨h :: done, todo, rfl, .cons ⟨g, hg, hemit⟩ hall, hstop⟩

/-- **The records are those of the heads up to the first one that cannot be written.** -/
theorem merge_split (s : Parsed) : ∃ done todo,
    heads s.item msgnumOf s.limit = done ++ todo ∧
      List.Forall₂ s.Writes done (merge s.messages).records ∧
      ∀ h ∈ todo.head?, ∀ r, ¬ s.Writes h r := by
  rw [merge_eq_emitAll]
  exact emitAll_split _ fun h hh => (mem_heads.mp hh).2.1

theorem isHead_of_split {todo : List Nat} (hsplit : heads s.item msgnumOf s.limit = done ++ todo)
    (hh : h ∈ done ++ todo) : IsHead s.item msgnumOf h := by
  rw [← hsplit] at hh
  exact (mem_heads.mp hh).2

/-- All heads up to `h` can be written. -/
def Reached (s : Parsed) (h : Nat) : Prop :=
  ∀ h' ≤ h, IsHead s.item msgnumOf h' → ∃ r, s.Writes h' r

theorem reached_iff_mem {todo : List Nat} (hsplit : heads s.item msgnumOf s.limit = done ++ todo)
    (hall : List.Forall₂ s.Writes done records) (hstop : ∀ h ∈ todo.head?, ∀ r, ¬ s.Writes h r)
    (hhead : IsHead s.item msgnumOf h) : s.Reached h ↔ h ∈ done := by
  have hsorted : (heads s.item msgnumOf s.limit).Pairwise (· < ·) := heads_sorted s.limit
  rw [hsplit, pairwise_append] at hsorted
  have hmem : ∀ h', IsHead s.item msgnumOf h' → h' ∈ done ∨ h' ∈ todo := by
    intro h' hh'
    rw [← mem_append, ← hsplit, mem_heads]
    exact ⟨lt_limit hh'.1, hh'⟩
  constructor
  · intro hreached
    rcases hmem h hhead with hdone | htodo
    · exact hdone
    · cases todo with
      | nil => cases htodo
      | cons h₀ todo =>
        have hle : h₀ ≤ h := by
          rcases mem_cons.mp htodo with rfl | htodo
          · exact le_refl _
          · exact Nat.le_of_lt ((pairwise_cons.mp hsorted.2.1).1 h htodo)
        obtain ⟨r, hw⟩ := hreached h₀ hle (isHead_of_split hsplit (by simp))
        exact absurd hw (hstop h₀ rfl r)
  · intro hdone h' hle hh'
    rcases hmem h' hh' with hdone' | htodo'
    · obtain ⟨r, -, hw⟩ := exists_of_forall₂ hall hdone'
      exact ⟨r, hw⟩
    · have := hsorted.2.2 h hdone h' htodo'
      omega

theorem mem_records : r ∈ (merge s.messages).records ↔
    ∃ h, IsHead s.item msgnumOf h ∧ s.Writes h r ∧ s.Reached h := by
  obtain ⟨done, todo, hsplit, hall, hstop⟩ := s.merge_split
  have hhead : ∀ h ∈ done, IsHead s.item msgnumOf h := fun h hh =>
    isHead_of_split hsplit (mem_append_left _ hh)
  constructor
  · intro hr
    obtain ⟨h, hh, hw⟩ := exists_of_forall₂ hall.flip hr
    exact ⟨h, hhead h hh, hw, (reached_iff_mem hsplit hall hstop (hhead h hh)).mpr hh⟩
  · rintro ⟨h, hh, hw, hreached⟩
    have hdone := (reached_iff_mem hsplit hall hstop hh).mp hreached
    obtain ⟨r', hr', hw'⟩ := exists_of_forall₂ hall hdone
    rw [hw.unique hw']
    exact hr'

theorem reached_iff : s.Reached h ↔ ∀ m p, s.First m p → slotNumber m ≤ h → s.Startable p := by
  constructor
  · intro hreached m p hfirst hle
    obtain ⟨h', g, hh', hg, rfl, hp⟩ := first_iff.mp hfirst
    rw [slotNumber_of_item (head_groupAt hg)] at hle
    obtain ⟨r, g', hg', hok⟩ := hreached h' hle hh'
    cases hg.symm.trans hg'
    exact (emit_ok_iff hh' hg).mp ⟨r, hok⟩ p hp
  · intro hstart h' hle hh'
    obtain ⟨g, hg⟩ := exists_groupAt hh'.1
    have hok : ∀ p ∈ g.head.part, s.Startable p := fun p hp =>
      hstart g.head p (first_iff.mpr ⟨h', g, hh', hg, rfl, hp⟩)
        (by rw [slotNumber_of_item (head_groupAt hg)]; exact hle)
    obtain ⟨r, hr⟩ := (emit_ok_iff hh' hg).mpr hok
    exact ⟨r, g, hg, hr⟩

end Parsed

/-! ### Every stored message in one record -/

def Record.numbers (r : Record) : List Nat := r.slots.filterMap decimal?

/-- Every input slot is listed exactly once, and the records come in the order of
    their smallest slots. -/
structure Partition (s : Parsed) (records : List Record) : Prop where
  listed : ∀ slot, slot ∈ records.flatMap Record.slots ↔ slot ∈ s.messages.map Message.slot
  once : (records.flatMap Record.slots).Nodup
  ordered : records.Pairwise fun r r' => ∃ n ∈ r.numbers, ∀ n' ∈ r'.numbers, n < n'

namespace Parsed

variable {s : Parsed}

theorem Writes.numbers {h : Nat} {r : Record} (hr : s.Writes h r) :
    r.numbers = members s.item msgnumOf s.limit h := by
  rw [Record.numbers, hr.slots, filterMap_map]
  have : decimal? ∘ decimal = some := funext decimal?_decimal
  rw [this, filterMap_some]

theorem flatMap_slots {done : List Nat} {records : List Record}
    (hall : List.Forall₂ s.Writes done records) :
    records.flatMap Record.slots
      = (done.flatMap (members s.item msgnumOf s.limit)).map decimal := by
  induction hall with
  | nil => rfl
  | cons hw _ ih => rw [flatMap_cons, flatMap_cons, map_append, ih, hw.slots]

theorem mem_map_slot {n : Nat} :
    decimal n ∈ s.messages.map Message.slot ↔ (s.item n).isSome = true := by
  rw [mem_map, Option.isSome_iff_exists]
  simp only [item_eq_some]

theorem pairwise_numbers {done : List Nat} {records : List Record}
    (hall : List.Forall₂ s.Writes done records) (hsorted : done.Pairwise (· < ·)) :
    records.Pairwise fun r r' => ∃ n ∈ r.numbers, ∀ n' ∈ r'.numbers, n < n' := by
  induction hall with
  | nil => exact .nil
  | @cons h r done records hw hall ih =>
    rw [pairwise_cons] at hsorted ⊢
    refine ⟨fun r' hr' => ⟨h, ?_, fun n' hn' => ?_⟩, ih hsorted.2⟩
    · rw [hw.numbers]
      exact mem_cons_self
    · obtain ⟨h', hh', (hw' : s.Writes h' r')⟩ := exists_of_forall₂ hall.flip hr'
      have hlt := hsorted.1 h' hh'
      rw [hw'.numbers, mem_members] at hn'
      omega

end Parsed

open Parsed

/-- **The slot lists partition the stored messages exactly when every reference number
    has a part in range.** -/
theorem partition_iff (s : Parsed) : Partition s (merge s.messages).records ↔
    ∀ m p, s.First m p → s.Startable p := by
  obtain ⟨done, todo, hsplit, hall, hstop⟩ := s.merge_split
  have hslots := flatMap_slots hall
  have hnodup : ((heads s.item msgnumOf s.limit).flatMap
      (members s.item msgnumOf s.limit)).Nodup := nodup_flatMap_members s.limit
  have hsorted : (heads s.item msgnumOf s.limit).Pairwise (· < ·) := heads_sorted s.limit
  constructor
  · intro hpart m p hfirst
    obtain ⟨h, g, hhead, hg, rfl, hp⟩ := first_iff.mp hfirst
    have hlisted : decimal h ∈ (merge s.messages).records.flatMap Record.slots :=
      (hpart.listed _).mpr (mem_map_slot.mpr hhead.1)
    rw [hslots, mem_map] at hlisted
    obtain ⟨h', hh', heq⟩ := hlisted
    cases decimal_injective heq
    obtain ⟨h', hdone, hmem⟩ := mem_flatMap.mp hh'
    have hh' : IsHead s.item msgnumOf h' :=
      isHead_of_split hsplit (mem_append_left _ hdone)
    cases head_unique hh' hhead hmem (mem_members.mpr (.inl rfl))
    obtain ⟨r, -, g', hg', hok⟩ := exists_of_forall₂ hall hdone
    cases hg.symm.trans hg'
    exact (emit_ok_iff hhead hg).mp ⟨r, hok⟩ p hp
  · intro hstart
    have htodo : todo = [] := by
      cases todo with
      | nil => rfl
      | cons h todo =>
        have hh : IsHead s.item msgnumOf h := isHead_of_split hsplit (by simp)
        obtain ⟨r, hw⟩ := reached_iff.mpr (fun m p hfirst _ => hstart m p hfirst)
          h (le_refl h) hh
        exact absurd hw (hstop h rfl r)
    rw [htodo, append_nil] at hsplit
    rw [hsplit] at hsorted hnodup
    refine ⟨fun slot => ?_, ?_, pairwise_numbers hall hsorted⟩
    · rw [hslots, mem_map]
      constructor
      · rintro ⟨n, hn, rfl⟩
        rw [← hsplit, mem_flatMap_members] at hn
        exact mem_map_slot.mpr hn.2
      · intro hslot
        obtain ⟨m, hm, rfl⟩ := mem_map.mp hslot
        obtain ⟨n, hn⟩ := s.decimal_slot m hm
        rw [hn, mem_map_slot] at hslot
        rw [hn, ← hsplit]
        exact ⟨n, mem_flatMap_members.mpr ⟨lt_limit hslot, hslot⟩, rfl⟩
    · rw [hslots]
      exact hnodup.map decimal_injective

def stored (slot : Nat) (phone : String) (part : Option Part) (msg : String) : Message :=
  ⟨decimal slot, phone.toList, ['1'], part, msg.toList, msg.toList⟩

def partOf (msgnum msgord msgmax : Nat) : Option Part :=
  some ⟨decimal msgnum, decimal msgord, decimal msgmax⟩

def strayPart : Parsed where
  messages := [stored 0 "+1555" (partOf 9 3 2) "stray", stored 1 "+1555" (partOf 5 2 2) "world",
    stored 2 "+1555" (partOf 5 1 2) "hello "]
  decimal_slot := by simp [stored]
  nodup_slot := by decide
  numeric := by decide

theorem merge_strayPart : (merge strayPart.messages).records = [] := by decide

theorem not_partition_strayPart : ¬ Partition strayPart (merge strayPart.messages).records := by
  intro hpart
  rw [merge_strayPart] at hpart
  have hlisted := (hpart.listed (decimal 0)).mpr (by decide)
  cases hlisted

/-! ### A complete message -/

/-- The texts are stored as the parts `1..k` of one reference number, one slot for
    each; nothing else is stored under that number. -/
structure StoredAs (s : Parsed) (r : List Char) (texts : List (List Char)) : Prop where
  nonempty : texts ≠ []
  part : ∀ m ∈ s.parts r, ∃ j, m.part = some ⟨r, decimal (j + 1), decimal texts.length⟩ ∧
    texts[j]? = some m.msg
  all : ∀ j < texts.length, ∃ m ∈ s.messages,
    m.part = some ⟨r, decimal (j + 1), decimal texts.length⟩
  once : ∀ m ∈ s.parts r, ∀ m' ∈ s.parts r, m.part = m'.part → m = m'

def Record.mentions (s : Parsed) (r : List Char) (record : Record) : Bool :=
  record.slots.any fun slot => slot ∈ (s.parts r).map Message.slot

/-- One record for the whole message: all its slots, the texts in part order, and the
    preview of a complete message made from that of part 1. -/
structure Whole (s : Parsed) (r : List Char) (texts : List (List Char)) (record : Record) :
    Prop where
  slots : ∀ slot, slot ∈ record.slots ↔ slot ∈ (s.parts r).map Message.slot
  msg : record.msg = trimEnd texts.flatten
  short : ∃ m ∈ s.messages, m.part = some ⟨r, decimal 1, decimal texts.length⟩ ∧
    record.short = completeShort m.short texts.flatten

def Reassembled (s : Parsed) (r : List Char) (texts : List (List Char))
    (records : List Record) : Prop :=
  ∃ record, records.filter (Record.mentions s r) = [record] ∧ Whole s r texts record

theorem flatMap_orders (texts : List (List Char)) :
    ((orders texts.length).flatMap fun j => (texts[j - 1]?).getD []) = texts.flatten := by
  have hmap : (range texts.length).map (fun j => texts[j]?.getD []) = texts := by
    refine ext_getElem (by simp) fun i h1 h2 => ?_
    simp [h2]
  rw [orders, flatMap_map, flatMap_def]
  simp only [Nat.add_sub_cancel]
  rw [hmap]

theorem filter_eq_singleton {α β : Type} {R : α → β → Prop} {q : β → Bool} {as : List α}
    {bs : List β} (hall : List.Forall₂ R as bs) (hnodup : as.Nodup) {a : α} {b : β} (hab : R a b)
    (hfun : ∀ b', R a b' → b' = b) (hq : ∀ a' b', R a' b' → (q b' = true ↔ a' = a)) :
    (a ∈ as → bs.filter q = [b]) ∧ (a ∉ as → bs.filter q = []) := by
  induction hall with
  | nil => exact ⟨fun h => (not_mem_nil h).elim, fun _ => rfl⟩
  | @cons a' b' as bs hr hall ih =>
    rw [nodup_cons] at hnodup
    obtain ⟨ihin, ihout⟩ := ih hnodup.2
    by_cases heq : a' = a
    · subst heq
      refine ⟨fun _ => ?_, absurd mem_cons_self⟩
      rw [filter_cons_of_pos ((hq a' b' hr).mpr rfl), ihout hnodup.1, hfun b' hr]
    · have hfalse : ¬ q b' = true := fun h => heq ((hq a' b' hr).mp h)
      rw [filter_cons_of_neg hfalse, mem_cons]
      exact ⟨fun h => ihin (h.resolve_left (Ne.symm heq)), fun h => ihout fun h' => h (.inr h')⟩

namespace StoredAs

variable {s : Parsed} {r : List Char} {texts : List (List Char)}

theorem exists_group (hst : StoredAs s r texts) : ∃ h g p,
    IsHead s.item msgnumOf h ∧ s.groupAt h = some g ∧ g.head.part = some p ∧ p.msgnum = r ∧
      totalOf p = texts.length ∧ ∀ m, m ∈ g.all ↔ m ∈ s.parts r := by
  obtain ⟨m, hm, hpart⟩ := hst.all 0 (length_pos_iff.mpr hst.nonempty)
  have hitem := isSome_item hm
  obtain ⟨h, -, hhead, hmember⟩ := exists_head_members msgnumOf (lt_limit hitem) hitem
  obtain ⟨g, hg⟩ := exists_groupAt hhead.1
  have hmem : m ∈ g.all := (mem_groupAt hg).mpr ⟨hm, hmember⟩
  cases hp : g.head.part with
  | none =>
    rw [all_single hg hp, mem_singleton] at hmem
    rw [← hmem, hpart] at hp
    cases hp
  | some p =>
    have hnum : p.msgnum = r := by
      have hm' := (mem_all_iff hg hhead hp).mp hmem
      have := (mem_parts.mp hm').2
      simpa [msgnumOf, hpart] using this.symm
    have hall : ∀ m, m ∈ g.all ↔ m ∈ s.parts r := fun m => by
      rw [← hnum]
      exact mem_all_iff hg hhead hp
    obtain ⟨j, hpj, -⟩ := hst.part g.head ((hall _).mp mem_cons_self)
    rw [hp] at hpj
    cases hpj
    exact ⟨h, g, _, hhead, hg, hp, rfl, by simp [totalOf], hall⟩

theorem tableOf_part (hst : StoredAs s r texts) {g : Group}
    (hall : ∀ m, m ∈ g.all ↔ m ∈ s.parts r) (field : Message → List Char) {j : Nat} {m : Message}
    (hm : m ∈ s.parts r) (hp : m.part = some ⟨r, decimal (j + 1), decimal texts.length⟩) :
    tableOf field g.all (decimal (j + 1)) = some (field m) := by
  refine tableOf_eq ((hall m).mpr hm) hp fun m' hm' p' hp' hord => ?_
  have hm' := (hall m').mp hm'
  obtain ⟨j', hpj', -⟩ := hst.part m' hm'
  rw [hpj'] at hp'
  cases hp'
  rw [hst.once m hm m' hm' (by rw [hp, hpj']; simpa using hord.symm)]

theorem mem_parts_of_part {m : Message} (hm : m ∈ s.messages) {ord max : List Char}
    (hp : m.part = some ⟨r, ord, max⟩) : m ∈ s.parts r := by
  simp [mem_parts, hm, msgnumOf, hp]

theorem whole_of_writes (hst : StoredAs s r texts) {h : Nat} {g : Group} {p : Part}
    (hg : s.groupAt h = some g) (hp : g.head.part = some p) (htotal : totalOf p = texts.length)
    (hall : ∀ m, m ∈ g.all ↔ m ∈ s.parts r) :
    ∃ record, emit g = .ok record ∧ Whole s r texts record := by
  have hpos : 0 < texts.length := length_pos_iff.mpr hst.nonempty
  obtain ⟨m₁, hm₁, hp₁⟩ := hst.all 0 hpos
  have hm₁' := mem_parts_of_part hm₁ hp₁
  have hcomplete : g.Complete texts.length := by
    intro j hj
    rw [mem_orders] at hj
    obtain ⟨m, hm, hpm⟩ := hst.all (j - 1) (by omega)
    refine ⟨m, (hall m).mpr (mem_parts_of_part hm hpm), _, hpm, ?_⟩
    rw [Nat.sub_add_cancel hj.1]
  have hbody : g.body texts.length = texts.flatten := by
    rw [← flatMap_orders]
    refine flatMap_congr fun j hj => ?_
    rw [mem_orders] at hj
    obtain ⟨m, hm, hpm⟩ := hst.all (j - 1) (by omega)
    have hm' := mem_parts_of_part hm hpm
    have htable := hst.tableOf_part hall Message.msg hm' hpm
    rw [Nat.sub_add_cancel hj.1] at htable
    obtain ⟨j', hpj', htext⟩ := hst.part m hm'
    have hjj : j' = j - 1 := by
      rw [hpm] at hpj'
      injection hpj' with hpart
      injection hpart with _ hord _
      have := decimal_injective hord
      omega
    rw [htable, ← hjj, htext]
  have hpreview : g.preview texts.length = some m₁.short := by
    obtain ⟨n, hn⟩ : ∃ n, texts.length = n + 1 := ⟨texts.length - 1, by omega⟩
    rw [Group.preview, orders, hn, range_succ_eq_map, map_cons, findSome?_cons]
    simp only [hst.tableOf_part hall Message.msg hm₁' hp₁,
      hst.tableOf_part hall Message.short hm₁' hp₁, Option.bind_some]
  rcases Group.emit_parts hp (numeric_head hg hp) with
    ⟨hnone, -⟩ | ⟨short, record, hshort, hok, hslots, -, hwhole⟩
  · rw [htotal, hpreview] at hnone
    cases hnone
  · rw [htotal] at hshort hwhole
    obtain ⟨hmsg, hshort'⟩ := hwhole hcomplete
    rw [hbody] at hmsg hshort'
    cases hpreview.symm.trans hshort
    refine ⟨record, hok, fun slot => ?_, hmsg, m₁, hm₁, hp₁, hshort'⟩
    simp only [hslots, mem_map, hall]

theorem mentions_iff {h h' : Nat} {g : Group} {record : Record}
    (hhead : IsHead s.item msgnumOf h) (hg : s.groupAt h = some g)
    (hall : ∀ m, m ∈ g.all ↔ m ∈ s.parts r) (hhead' : IsHead s.item msgnumOf h')
    (hw : s.Writes h' record) : Record.mentions s r record = true ↔ h' = h := by
  simp only [Record.mentions, any_eq_true, decide_eq_true_eq, hw.slots]
  constructor
  · rintro ⟨slot, hslot, hpart⟩
    obtain ⟨n, hn, rfl⟩ := mem_map.mp hslot
    obtain ⟨m, hm, hmn⟩ := mem_map.mp hpart
    have hmem := ((mem_groupAt hg).mp ((hall m).mpr hm)).2
    have hnum : slotNumber m = n := by simp [slotNumber, hmn]
    rw [hnum] at hmem
    exact head_unique hhead' hhead hn hmem
  · rintro rfl
    refine ⟨decimal h', mem_map_of_mem (mem_members.mpr (.inl rfl)), ?_⟩
    rw [← (item_eq_some.mp (head_groupAt hg)).2]
    exact mem_map_of_mem ((hall _).mp mem_cons_self)

end StoredAs

/-- **A message stored completely comes out whole, wherever its parts are, exactly when
    the script does not stop before its lowest part.** -/
theorem reassembled_iff (s : Parsed) (r : List Char) (texts : List (List Char))
    (hst : StoredAs s r texts) :
    Reassembled s r texts (merge s.messages).records ↔
      ∀ m p, s.First m p → (∀ m' ∈ s.parts r, slotNumber m < slotNumber m') →
        s.Startable p := by
  obtain ⟨h, g, p, hhead, hg, hp, rfl, htotal, hall⟩ := hst.exists_group
  obtain ⟨record, hok, hwhole⟩ := hst.whole_of_writes hg hp htotal hall
  have hw : s.Writes h record := ⟨g, hg, hok⟩
  have hnumber : slotNumber g.head = h := slotNumber_of_item (head_groupAt hg)
  have hfirst : s.First g.head p := first_iff.mpr ⟨h, g, hhead, hg, rfl, hp⟩
  -- the condition says that the head of the message is reached
  have hcond : s.Reached h ↔ ∀ m p', s.First m p' →
      (∀ m' ∈ s.parts p.msgnum, slotNumber m < slotNumber m') → s.Startable p' := by
    rw [reached_iff]
    constructor
    · intro hreached m p' hm hlt
      have hbelow := hlt g.head ((hall _).mp mem_cons_self)
      exact hreached m p' hm (by omega)
    · intro hbefore m p' hm hle
      rcases Nat.lt_or_eq_of_le hle with hlt | heq
      · refine hbefore m p' hm fun m' hm' => ?_
        have := hfirst.least m' hm'
        omega
      · have hitem := item_slotNumber hm.mem
        rw [heq, head_groupAt hg] at hitem
        cases hitem
        cases hp.symm.trans hm.part
        exact (emit_ok_iff hhead hg).mp ⟨record, hok⟩ p hp
  obtain ⟨done, todo, hsplit, hwrites, hstop⟩ := s.merge_split
  have hnodup : done.Nodup := by
    have hheads : (heads s.item msgnumOf s.limit).Nodup := nodup_range.filter _
    rw [hsplit] at hheads
    exact (nodup_append.mp hheads).1
  have hwrites' : List.Forall₂ (fun h' r' => IsHead s.item msgnumOf h' ∧ s.Writes h' r') done
      (merge s.messages).records :=
    List.forall₂_iff_get.mpr ⟨hwrites.length_eq, fun i h₁ h₂ =>
      ⟨isHead_of_split hsplit (mem_append_left _ (get_mem _ _)),
        (List.forall₂_iff_get.mp hwrites).2 i h₁ h₂⟩⟩
  obtain ⟨hin, hout⟩ := filter_eq_singleton hwrites' hnodup ⟨hhead, hw⟩
    (fun r' hr' => hr'.2.unique hw)
    fun h' r' hr' => StoredAs.mentions_iff hhead hg hall hr'.1 hr'.2
  rw [← hcond, reached_iff_mem hsplit hwrites hstop hhead]
  constructor
  · rintro ⟨record', hfilter, -⟩
    by_contra hnot
    rw [hout hnot] at hfilter
    cases hfilter
  · intro hdone
    exact ⟨record, hin hdone, hwhole⟩

theorem storedAs_strayPart :
    StoredAs strayPart (decimal 5) ["hello ".toList, "world".toList] where
  nonempty := by decide
  part m hm := ⟨if m.msg = "world".toList then 1 else 0, by revert m; decide⟩
  all := by decide
  once := by decide

theorem not_reassembled_strayPart :
    StoredAs strayPart (decimal 5) ["hello ".toList, "world".toList] ∧
      ¬ Reassembled strayPart (decimal 5) ["hello ".toList, "world".toList]
        (merge strayPart.messages).records := by
  refine ⟨storedAs_strayPart, ?_⟩
  rintro ⟨record, hfilter, -⟩
  rw [merge_strayPart] at hfilter
  cases hfilter

/-- Two parts in reverse order behind an incomplete message, with a single message between them. -/
def interleaved : Parsed where
  messages := [stored 0 "+1555" (partOf 9 2 3) "lost", stored 1 "+1555" (partOf 5 2 2) "world",
    stored 2 "+1777" none "single", stored 3 "+1555" (partOf 5 1 2) "hello "]
  decimal_slot := by simp [stored]
  nodup_slot := by decide
  numeric := by decide

theorem storedAs_interleaved :
    StoredAs interleaved (decimal 5) ["hello ".toList, "world".toList] where
  nonempty := by decide
  part m hm := ⟨if m.msg = "world".toList then 1 else 0, by revert m; decide⟩
  all := by decide
  once := by decide

theorem reassembled_interleaved :
    StoredAs interleaved (decimal 5) ["hello ".toList, "world".toList] ∧
      Reassembled interleaved (decimal 5) ["hello ".toList, "world".toList]
        (merge interleaved.messages).records := by
  refine ⟨storedAs_interleaved, (reassembled_iff _ _ _ storedAs_interleaved).mpr ?_⟩
  intro m p hfirst hbefore
  have hm : m ∈ [stored 0 "+1555" (partOf 9 2 3) "lost",
    stored 1 "+1555" (partOf 5 2 2) "world", stored 2 "+1777" none "single",
    stored 3 "+1555" (partOf 5 1 2) "hello "] := hfirst.mem
  have hlt : slotNumber m < 1 :=
    hbefore (stored 1 "+1555" (partOf 5 2 2) "world") (by decide)
  have hp := hfirst.part
  simp only [mem_cons, not_mem_nil, or_false] at hm
  rcases hm with rfl | rfl | rfl | rfl
  · cases hp
    exact ⟨stored 0 "+1555" (partOf 9 2 3) "lost", by decide, ⟨decimal 9, decimal 2, decimal 3⟩,
      rfl, 2, by decide, by decide, rfl⟩
  · exact absurd hlt (by decide)
  · exact absurd hlt (by decide)
  · exact absurd hlt (by decide)

/-! ### Messages are not mixed -/

def Parsed.sources (s : Parsed) (record : Record) : List Message :=
  s.messages.filter fun m => m.slot ∈ record.slots

/-- Every text has its place in the assembled message, which is their concatenation. -/
def NoneDropped (sources : List Message) (total : Nat) (msg : List Char) : Prop :=
  ∃ texts : List (List Char), texts.length = total ∧ msg = trimEnd texts.flatten ∧
    ∀ m ∈ sources, ∃ p ∈ m.part, ∃ j, p.msgord = decimal (j + 1) ∧ texts[j]? = some m.msg

/-- A record is a single message, or it is made from parts of one sender, reference
    number and part count, without loss when all parts are there. -/
def Unmixed (s : Parsed) (record : Record) : Prop :=
  (∃ m ∈ s.messages, m.part = none ∧ record = single m) ∨
    ∃ phone msgnum total,
      (∀ m ∈ s.sources record, m.phone = phone ∧
        ∃ p ∈ m.part, p.msgnum = msgnum ∧ totalOf p = total) ∧
      ((∀ j ∈ orders total, ∃ m ∈ s.sources record, ∃ p ∈ m.part, p.msgord = decimal j) →
        NoneDropped (s.sources record) total record.msg)

/-- The parts of one reference number agree in sender and count; when they are all
    there, no order is out of range and parts of one order have the same text. -/
structure Coherent (s : Parsed) (m : Message) (p : Part) : Prop where
  phone : ∀ m' ∈ s.parts p.msgnum, m'.phone = m.phone
  total : ∀ m' ∈ s.parts p.msgnum, ∀ p' ∈ m'.part, totalOf p' = totalOf p
  range : (∀ j ∈ orders (totalOf p), ∃ m' ∈ s.parts p.msgnum, ∃ p' ∈ m'.part,
      p'.msgord = decimal j) →
    ∀ m' ∈ s.parts p.msgnum, ∀ p' ∈ m'.part, ∃ j ∈ orders (totalOf p), p'.msgord = decimal j
  text : (∀ j ∈ orders (totalOf p), ∃ m' ∈ s.parts p.msgnum, ∃ p' ∈ m'.part,
      p'.msgord = decimal j) →
    ∀ m₁ ∈ s.parts p.msgnum, ∀ m₂ ∈ s.parts p.msgnum, ∀ p₁ ∈ m₁.part, ∀ p₂ ∈ m₂.part,
      p₁.msgord = p₂.msgord → m₁.msg = m₂.msg

theorem mem_sources {s : Parsed} {h : Nat} {g : Group} {record : Record} (hg : s.groupAt h = some g)
    (hw : s.Writes h record) {m : Message} : m ∈ s.sources record ↔ m ∈ g.all := by
  rw [sources, mem_filter, mem_groupAt hg, hw.slots]
  refine and_congr_right fun hm => ?_
  have hslot : m.slot = decimal (slotNumber m) :=
    (item_eq_some.mp (item_slotNumber hm)).2
  rw [decide_eq_true_eq, hslot, mem_map_of_injective decimal_injective]

theorem unmixed_iff {s : Parsed} {h : Nat} {g : Group} {p : Part} {record : Record}
    (hhead : IsHead s.item msgnumOf h) (hg : s.groupAt h = some g) (hp : g.head.part = some p)
    (hok : emit g = .ok record) : Unmixed s record ↔ Coherent s g.head p := by
  have hw : s.Writes h record := ⟨g, hg, hok⟩
  have hsrc : ∀ m, m ∈ s.sources record ↔ m ∈ s.parts p.msgnum := fun m =>
    (mem_sources hg hw).trans (mem_all_iff hg hhead hp)
  have hall : ∀ m, m ∈ g.all ↔ m ∈ s.parts p.msgnum := fun m => mem_all_iff hg hhead hp
  have hself : g.head ∈ s.parts p.msgnum := (hall _).mp mem_cons_self
  have hself' : g.head ∈ s.messages := (mem_parts.mp hself).1
  -- a group of parts is no single message
  have hparts : (∃ m ∈ s.messages, m.part = none ∧ record = single m) → False := by
    rintro ⟨m, hm, hnone, rfl⟩
    have : g.head ∈ s.sources (single m) := (hsrc _).mpr hself
    rw [sources, mem_filter] at this
    have hslot : g.head.slot = m.slot := by simpa [single] using this.2
    rw [eq_of_slot hself' hm hslot, hnone] at hp
    cases hp
  have hmsg : g.Complete (totalOf p) → record.msg = trimEnd (g.body (totalOf p)) := by
    rcases Group.emit_parts hp (numeric_head hg hp) with
      ⟨-, stop, hstop⟩ | ⟨short, record', -, hok', -, -, hwhole⟩
    · rw [hstop] at hok
      cases hok
    · cases hok.symm.trans hok'
      exact fun hc => (hwhole hc).1
  constructor
  · rintro (hsingle | ⟨phone, msgnum, total, hsame, hdrop⟩)
    · exact (hparts hsingle).elim
    · obtain ⟨hphone, p₀, hp₀, -, htotal⟩ := hsame g.head ((hsrc _).mpr hself)
      cases hp.symm.trans hp₀
      simp only [hsrc, ← htotal] at hdrop hsame
      refine ⟨fun m' hm' => (hsame m' hm').1.trans hphone.symm, ?_, ?_, ?_⟩
      · intro m' hm' p' hp'
        obtain ⟨-, q, hq, -, htot⟩ := hsame m' hm'
        cases (Option.mem_def.mp hp').symm.trans hq
        exact htot
      · intro hcomplete m' hm' p' hp'
        obtain ⟨texts, hlen, -, hplace⟩ := hdrop hcomplete
        obtain ⟨q, hq, j, hord, htext⟩ := hplace m' ((hsrc _).mpr hm')
        cases (Option.mem_def.mp hp').symm.trans hq
        have hj := (List.getElem?_eq_some_iff.mp htext).1
        exact ⟨j + 1, mem_orders.mpr (by omega), hord⟩
      · intro hcomplete m₁ hm₁ m₂ hm₂ p₁ hp₁ p₂ hp₂ hord
        obtain ⟨texts, -, -, hplace⟩ := hdrop hcomplete
        obtain ⟨q₁, hq₁, j₁, hord₁, htext₁⟩ := hplace m₁ ((hsrc _).mpr hm₁)
        obtain ⟨q₂, hq₂, j₂, hord₂, htext₂⟩ := hplace m₂ ((hsrc _).mpr hm₂)
        cases (Option.mem_def.mp hp₁).symm.trans hq₁
        cases (Option.mem_def.mp hp₂).symm.trans hq₂
        have hj : j₁ = j₂ := by
          have := decimal_injective (hord₁.symm.trans (hord.trans hord₂))
          omega
        rw [hj, htext₂] at htext₁
        exact Option.some.inj htext₁.symm
  · rintro ⟨hphone, htotal, hrange, htext⟩
    refine .inr ⟨g.head.phone, p.msgnum, totalOf p, fun m hm => ?_, fun hcomplete => ?_⟩
    · rw [hsrc] at hm
      obtain ⟨q, hq, hnum⟩ := Option.map_eq_some_iff.mp (mem_parts.mp hm).2
      exact ⟨hphone m hm, q, hq, hnum, htotal m hm q hq⟩
    · simp only [hsrc] at hcomplete
      refine ⟨(orders (totalOf p)).map fun j => (tableOf Message.msg g.all (decimal j)).getD [],
        by simp [orders], ?_, fun m hm => ?_⟩
      · rw [hmsg fun j hj => by simpa only [hall] using hcomplete j hj, Group.body,
          flatMap_def]
      · rw [hsrc] at hm
        obtain ⟨q, hq, -⟩ := Option.map_eq_some_iff.mp (mem_parts.mp hm).2
        obtain ⟨j, hj, hord⟩ := hrange hcomplete m hm q hq
        have htable : tableOf Message.msg g.all q.msgord = some m.msg :=
          tableOf_eq ((hall m).mpr hm) hq fun m' hm' p' hp' hord' =>
            htext hcomplete m' ((hall m').mp hm') m hm p' hp' q hq hord'
        rw [mem_orders] at hj
        refine ⟨q, hq, j - 1, by rw [hord, Nat.sub_add_cancel hj.1], ?_⟩
        have hget : (orders (totalOf p))[j - 1]? = some j := by
          simp only [orders, getElem?_map]
          rw [getElem?_range (by omega)]
          simp only [Option.map_some, Option.some.injEq]
          omega
        rw [getElem?_map, hget, Option.map_some, ← hord, htable]
        rfl

/-- **No record mixes messages exactly when the parts of every reference number that the
    script reaches are coherent.** -/
theorem unmixed_records_iff (s : Parsed) :
    (∀ record ∈ (merge s.messages).records, Unmixed s record) ↔
      ∀ m p, s.First m p →
        (∀ m' p', s.First m' p' → slotNumber m' ≤ slotNumber m → s.Startable p') →
        Coherent s m p := by
  constructor
  · intro hunmixed m p hfirst hreached
    obtain ⟨h, g, hhead, hg, rfl, hp⟩ := first_iff.mp hfirst
    have hnumber : slotNumber g.head = h := slotNumber_of_item (head_groupAt hg)
    rw [hnumber] at hreached
    have hreach := reached_iff.mpr hreached
    obtain ⟨record, hw⟩ := hreach h (le_refl h) hhead
    have hmem : record ∈ (merge s.messages).records :=
      mem_records.mpr ⟨h, hhead, hw, hreach⟩
    obtain ⟨g', hg', hok⟩ := hw
    cases hg.symm.trans hg'
    exact (unmixed_iff hhead hg hp hok).mp (hunmixed record hmem)
  · intro hcoherent record hmem
    obtain ⟨h, hhead, ⟨g, hg, hok⟩, hreach⟩ := mem_records.mp hmem
    have hitem := head_groupAt hg
    cases hp : g.head.part with
    | none =>
      rw [Group.emit_single hp] at hok
      cases hok
      exact .inl ⟨g.head, (item_eq_some.mp hitem).1, hp, rfl⟩
    | some p =>
      refine (unmixed_iff hhead hg hp hok).mpr (hcoherent g.head p
        (first_iff.mpr ⟨h, g, hhead, hg, rfl, hp⟩) fun m' p' hfirst' hle => ?_)
      rw [slotNumber_of_item hitem] at hle
      exact reached_iff.mp hreach m' p' hfirst' hle

def twoSenders : Parsed where
  messages := [stored 0 "+1555" (partOf 5 1 2) "hello ", stored 1 "+1777" (partOf 5 2 2) "there"]
  decimal_slot := by simp [stored]
  nodup_slot := by decide
  numeric := by decide

theorem not_unmixed_twoSenders :
    ¬ ∀ record ∈ (merge twoSenders.messages).records, Unmixed twoSenders record := by
  intro hunmixed
  have hmem : ⟨[decimal 0, decimal 1], "+1555".toList, decimal 1, "hello there".toList,
      "hello ".toList⟩ ∈ (merge twoSenders.messages).records := by decide
  rcases hunmixed _ hmem with ⟨m, -, -, hsingle⟩ | ⟨phone, msgnum, total, hsame, -⟩
  · have hslots := congrArg (fun record => record.slots.length) hsingle
    exact absurd hslots (by simp [single])
  · have h0 := (hsame (stored 0 "+1555" (partOf 5 1 2) "hello ") (by decide)).1
    have h1 := (hsame (stored 1 "+1777" (partOf 5 2 2) "there") (by decide)).1
    exact absurd (h0.trans h1.symm) (by decide)

/-! ### From one script to the other -/

/-- **Both scripts together.**  The file that `smsread.lua` writes for faithful messages is read
    back as these messages, and `merge.lua` writes their groups, in the order of their heads. -/
theorem merge_writeFile (used max : List Char) (hused : LineSafe used) (hmax : LineSafe max)
    (hcount : decimal? used ≠ some 0) {ms : List Decoded} (hfaithful : ∀ m ∈ ms, Faithful m)
    (hslots : (ms.map Decoded.slot).Nodup) :
    ∃ s : Parsed, readFile (writeFile used max ms) = .ok (some used, some max, s.messages) ∧
      List.Forall₂ Same ms s.messages ∧ merge s.messages = emitAll s.groups := by
  have hlen := length_le_flatMap ms
  obtain ⟨rs, hread, hsame⟩ := (readRecords_iff ms _ (Nat.lt_succ_of_le hlen)).mpr hfaithful
  have hslot : rs.map Message.slot = (ms.map Decoded.slot).map decimal := by
    clear hread hlen hfaithful hslots
    induction hsame with
    | nil => rfl
    | cons hm _ ih => rw [map_cons, map_cons, map_cons, hm.slot, ih]
  refine ⟨⟨rs, fun r hr => ?_, ?_, fun r hr p hp => ?_⟩, ?_, hsame, merge_eq_emitAll _⟩
  · obtain ⟨m, -, hm⟩ := exists_of_forall₂ hsame.flip hr
    exact ⟨m.slot, hm.slot⟩
  · rw [hslot]
    exact hslots.map decimal_injective
  · obtain ⟨m, -, hm⟩ := exists_of_forall₂ hsame.flip hr
    rw [hm.part] at hp
    obtain ⟨q, -, rfl⟩ := Option.map_eq_some_iff.mp hp
    simp [PartInfo.strings]
  · simp only [writeFile, if_neg hcount, readFile, readLine_of_lineSafe hused,
      readLine_of_lineSafe hmax]
    exact congrArg (· >>= fun rs => .ok (some used, some max, rs)) hread

/-- The two parts are put together, at the slot of the first one. -/
theorem merge_writeFile_received : ∃ s : Parsed,
    readFile (writeFile "3".toList "20".toList inbox) =
        .ok (some "3".toList, some "20".toList, s.messages) ∧
      (merge s.messages).records.map (fun r => (r.slots, r.msg)) =
        [([['0']], "Hello\nworld".toList), ([['1'], ['2']], "one two".toList)] ∧
      merge s.messages = emitAll s.groups := by
  obtain ⟨s, hread, -, hmerge⟩ := merge_writeFile "3".toList "20".toList (by decide) (by decide)
    (by decide) faithful_inbox (by decide)
  have hrecords : (match readFile (writeFile "3".toList "20".toList inbox) with
      | .ok (_, _, rs) => (merge rs).records.map fun r => (r.slots, r.msg)
      | .error _ => []) =
      [([['0']], "Hello\nworld".toList), ([['1'], ['2']], "one two".toList)] := by decide +kernel
  rw [hread] at hrecords
  exact ⟨s, hread, hrecords, hmerge⟩

end Rooter.Merge
