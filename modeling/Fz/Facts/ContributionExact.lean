import Fz.Base.Run
import Fz.Facts.Contribution

/-!
# Contributions are exact joins

`ContributionSlot.Exact` says that a slot has a contributor, and an aggregate equivalent to the join
of its contributors in its context and in every later one.  `apply_applied` says what one entry does
to one key, `applyAll_applied` what a publisher's entries do, and `run_contributions_exact` follows
for every run of the four arms.

The report of a call is exact but for one case.  `apply` compares the old aggregate with the join of
the contributors that are left, which is bottom when nobody is left.  Where the old aggregate was
equivalent to bottom, the key vanishes and is not reported.
-/

namespace Fz.Facts

set_option linter.unusedSectionVars false

variable {Ctx K P V : Type} [Store Ctx] [Stored Ctx K] [Stored Ctx P] [Stored Ctx V]
  [DecidableEq K] [DecidableEq P] [SemanticOrd Ctx K] [SemanticOrd Ctx P] [JoinContribution Ctx V]

/-! ## Joins -/

theorem joinFrom_extends (joined : V) (c : Ctx) (values : List V) :
    Extends c (joinFrom joined c values).2 := by
  induction values generalizing joined c with
  | nil => exact Store.extends_refl c
  | cons value values ih =>
    exact Store.extends_trans (JoinContribution.join_extends c joined value) (ih _ _)

theorem joinFrom_known {joined : V} {c : Ctx} {values : List V} (hjoined : Known c joined)
    (hvalues : ∀ v ∈ values, Known c v) :
    Known (joinFrom joined c values).2 (joinFrom joined c values).1 := by
  induction values generalizing joined c with
  | nil => exact hjoined
  | cons value values ih =>
    obtain ⟨hvalue, hvalues⟩ := List.forall_mem_cons.mp hvalues
    exact ih (JoinContribution.join_known hjoined hvalue) fun v hv =>
      Stored.known_extends (JoinContribution.join_extends c joined value) (hvalues v hv)

theorem joinFrom_again {joined : V} {c c' : Ctx} {values : List V} (hjoined : Known c joined)
    (hvalues : ∀ v ∈ values, Known c v) (hc : Extends (joinFrom joined c values).2 c') :
    (joinFrom joined c' values).1 = (joinFrom joined c values).1 := by
  induction values generalizing joined c c' with
  | nil => rfl
  | cons value values ih =>
    obtain ⟨hvalue, hvalues⟩ := List.forall_mem_cons.mp hvalues
    have hstep : Extends (joinAssign c joined value).2 c' :=
      Store.extends_trans (joinFrom_extends _ _ values) hc
    have hsame := JoinContribution.join_again hjoined hvalue hstep
    show (joinFrom (joinAssign c' joined value).1 (joinAssign c' joined value).2 values).1 = _
    rw [hsame]
    refine ih (JoinContribution.join_known hjoined hvalue) (fun v hv =>
      Stored.known_extends (JoinContribution.join_extends c joined value) (hvalues v hv)) ?_
    exact Store.extends_trans hc (JoinContribution.join_extends c' joined value)

/-- Publishers and values that a context has. -/
def ContributorsKnown (ctx : Ctx) (contributors : AList fun _ : P => V) : Prop :=
  ∀ p v, contributors.lookup p = some v → Known ctx p ∧ Known ctx v

theorem ContributorsKnown.extends {c c' : Ctx} {contributors : AList fun _ : P => V}
    (h : ContributorsKnown c contributors) (hc : Extends c c') :
    ContributorsKnown c' contributors := fun p v hp =>
  ⟨Stored.known_extends hc (h p v hp).1, Stored.known_extends hc (h p v hp).2⟩

/-- The join of the contributions to one key. -/
def aggregate (ctx : Ctx) (contributors : AList fun _ : P => V) : V × Ctx :=
  joinContributions ctx (orderedContributors ctx contributors)

theorem ContributorsKnown.ordered {ctx : Ctx} {contributors : AList fun _ : P => V}
    (h : ContributorsKnown ctx contributors) :
    ∀ v ∈ orderedContributors ctx contributors, Known ctx v := by
  intro v hv
  obtain ⟨e, he, rfl⟩ := List.mem_map.mp hv
  have hmem := (semanticSort_perm ctx Sigma.fst contributors.entries).mem_iff.mp he
  exact (h e.1 e.2 (AList.mem_lookup_iff.mpr hmem)).2

theorem aggregate_known {ctx : Ctx} {contributors : AList fun _ : P => V}
    (h : ContributorsKnown ctx contributors) :
    Known (aggregate ctx contributors).2 (aggregate ctx contributors).1 :=
  joinFrom_known (JoinContribution.known_bottom ctx) h.ordered

theorem aggregate_again {c c' : Ctx} {contributors : AList fun _ : P => V}
    (h : ContributorsKnown c contributors) (hc : Extends (aggregate c contributors).2 c') :
    (aggregate c' contributors).1 = (aggregate c contributors).1 := by
  have hcc : Extends c c' := Store.extends_trans (joinFrom_extends _ _ _) hc
  have hsame : orderedContributors c' contributors = orderedContributors c contributors := by
    unfold orderedContributors
    rw [semanticSort_extends hcc fun e he => (h e.1 e.2 (AList.mem_lookup_iff.mpr he)).1]
  unfold aggregate
  rw [hsame]
  exact joinFrom_again (JoinContribution.known_bottom c) h.ordered hc

/-! ## One entry -/

namespace SlotEntry

/-- The context has the handles of an entry. -/
def EntryKnown (ctx : Ctx) : SlotEntry V → Prop
  | .upsert value => Known ctx value
  | .withdraw => True

theorem EntryKnown.extends {c c' : Ctx} {entry : SlotEntry V} (h : entry.EntryKnown c)
    (hc : Extends c c') : entry.EntryKnown c' := by
  cases entry with
  | upsert value => exact Stored.known_extends hc h
  | withdraw => trivial

variable {ctx c : Ctx} {contributors installed : AList fun _ : P => V} {publisher : P} {join : Bool}
  {entry : SlotEntry V}

theorem install_cases (h : entry.install ctx contributors publisher join = (installed, c)) :
    (entry = .withdraw ∧ installed = contributors.erase publisher ∧ c = ctx) ∨
    (∃ value, entry = .upsert value ∧ installed = contributors.insert publisher value ∧ c = ctx) ∨
    ∃ value current, entry = .upsert value ∧ contributors.lookup publisher = some current ∧
      installed = contributors.insert publisher (joinAssign ctx current value).1 ∧
      c = (joinAssign ctx current value).2 := by
  cases entry with
  | withdraw =>
    obtain ⟨rfl, rfl⟩ := Prod.mk.inj h
    exact .inl ⟨rfl, rfl, rfl⟩
  | upsert value =>
    unfold install upsertContribution at h
    cases hcur : contributors.lookup publisher with
    | none =>
      rw [hcur] at h
      obtain ⟨rfl, rfl⟩ := Prod.mk.inj h
      exact .inr (.inl ⟨value, rfl, rfl, rfl⟩)
    | some current =>
      rw [hcur] at h
      cases join with
      | true =>
        obtain ⟨rfl, rfl⟩ := Prod.mk.inj h
        exact .inr (.inr ⟨value, current, rfl, rfl, rfl, rfl⟩)
      | false =>
        obtain ⟨rfl, rfl⟩ := Prod.mk.inj h
        exact .inr (.inl ⟨value, rfl, rfl, rfl⟩)

theorem install_extends (h : entry.install ctx contributors publisher join = (installed, c)) :
    Extends ctx c := by
  rcases install_cases h with ⟨_, _, rfl⟩ | ⟨_, _, _, rfl⟩ | ⟨value, current, _, _, _, rfl⟩
  · exact Store.extends_refl _
  · exact Store.extends_refl _
  · exact JoinContribution.join_extends ctx current value

theorem install_lookup_ne (h : entry.install ctx contributors publisher join = (installed, c))
    {q : P} (hq : q ≠ publisher) : installed.lookup q = contributors.lookup q := by
  rcases install_cases h with ⟨_, rfl, _⟩ | ⟨_, _, rfl, _⟩ | ⟨_, _, _, _, rfl, _⟩
  · exact AList.lookup_erase_ne hq
  · exact AList.lookup_insert_ne hq
  · exact AList.lookup_insert_ne hq

theorem install_known (h : entry.install ctx contributors publisher join = (installed, c))
    (hknown : ContributorsKnown ctx contributors) (hp : Known ctx publisher)
    (he : entry.EntryKnown ctx) : ContributorsKnown c installed := by
  intro q v hv
  rcases eq_or_ne q publisher with rfl | hq
  · refine ⟨Stored.known_extends (install_extends h) hp, ?_⟩
    rcases install_cases h with ⟨_, rfl, _⟩ | ⟨_, rfl, rfl, rfl⟩ | ⟨_, current, rfl, hcur, rfl, rfl⟩
    · rw [AList.lookup_erase] at hv
      cases hv
    · obtain rfl := Option.some.inj ((AList.lookup_insert _).symm.trans hv)
      exact he
    · obtain rfl := Option.some.inj ((AList.lookup_insert _).symm.trans hv)
      exact JoinContribution.join_known (hknown q current hcur).2 he
  · rw [install_lookup_ne h hq] at hv
    exact hknown.extends (install_extends h) q v hv

theorem install_eq_nil (h : entry.install ctx contributors publisher join = (installed, c))
    (hnil : installed.entries = []) : entry = .withdraw ∧ c = ctx := by
  rcases install_cases h with ⟨rfl, _, rfl⟩ | ⟨_, _, rfl, _⟩ | ⟨_, _, _, _, rfl, _⟩
  · exact ⟨rfl, rfl⟩
  · cases hnil
  · cases hnil

end SlotEntry

/-- A slot whose aggregate is the join of its contributors, in its context and every later one. -/
structure ContributionSlot.Exact (ctx : Ctx) (slot : ContributionSlot P V) : Prop where
  inhabited : slot.contributors.entries ≠ []
  known : ContributorsKnown ctx slot.contributors
  joined_known : Known ctx slot.joined
  joined : ∀ c, Extends ctx c → equivalent c slot.joined (aggregate c slot.contributors).1 = true

theorem ContributionSlot.Exact.extends {c c' : Ctx} {slot : ContributionSlot P V}
    (h : slot.Exact c) (hc : Extends c c') : slot.Exact c' where
  inhabited := h.inhabited
  known := h.known.extends hc
  joined_known := Stored.known_extends hc h.joined_known
  joined := fun d hd => h.joined d (Store.extends_trans hc hd)

/-- The same aggregate, where no aggregate is like none. -/
def sameAggregate (ctx : Ctx) : Option V → Option V → Bool
  | none, none => true
  | some old, some new => equivalent ctx old new
  | _, _ => false

namespace ContributionMap

def Exact (map : ContributionMap K P V) (ctx : Ctx) : Prop :=
  ∀ key slot, map.slots.lookup key = some slot → slot.Exact ctx

/-- This publisher alone contributes to a key, whose aggregate is equivalent to bottom. -/
def SoleBottom (map : ContributionMap K P V) (ctx : Ctx) (key : K) (publisher : P) : Prop :=
  ∃ slot, map.slots.lookup key = some slot ∧
    (∀ q v, slot.contributors.lookup q = some v → q = publisher) ∧
    equivalent ctx slot.joined (bottom Ctx) = true

/-- What applying an entry does to the store. -/
structure Applied (map : ContributionMap K P V) (ctx : Ctx) (key : K) (publisher : P)
    (entry : SlotEntry V) (out : Bool × ContributionMap K P V × Ctx) : Prop where
  grown : Extends ctx out.2.2
  elsewhere : ∀ k, k ≠ key → out.2.1.slots.lookup k = map.slots.lookup k
  others : ∀ q, q ≠ publisher → out.2.1.contribution key q = map.contribution key q
  exact : ∀ slot, out.2.1.slots.lookup key = some slot → slot.Exact out.2.2
  dropped : entry = .withdraw → map.SoleBottom ctx key publisher → out.2.1.slots.lookup key = none
  moved_iff : out.1 = true ↔ sameAggregate out.2.2 (map.get key) (out.2.1.get key) = false ∧
    ¬ (entry = .withdraw ∧ map.SoleBottom ctx key publisher)

section Apply

variable {map : ContributionMap K P V} {ctx : Ctx} {key : K} {publisher : P} {entry : SlotEntry V}
  {join : Bool}

variable {slot : ContributionSlot P V}

theorem get_of_lookup (h : map.slots.lookup key = some slot) : map.get key = some slot.joined := by
  rw [get, h]
  rfl

theorem contribution_of_lookup {q : P} (h : map.slots.lookup key = some slot) :
    map.contribution key q = slot.contributors.lookup q := by
  rw [contribution, h]
  rfl

theorem lookup_eq_none_of_entries {α : Type} [DecidableEq α] {ν : Type}
    {table : AList fun _ : α => ν} (h : table.entries = []) (a : α) : table.lookup a = none := by
  cases hv : table.lookup a with
  | none => rfl
  | some v =>
    have hmem := AList.mem_lookup_iff.mp hv
    rw [h] at hmem
    cases hmem

theorem exact_kept {c : Ctx} {contributors : AList fun _ : P => V} (old : V) (moved : Bool)
    (hne : contributors.entries ≠ []) (hknown : ContributorsKnown c contributors)
    (hmoved : moved = false → Known c old ∧
      equivalent (aggregate c contributors).2 old (aggregate c contributors).1 = true) :
    ContributionSlot.Exact (aggregate c contributors).2
      ⟨contributors, if moved then (aggregate c contributors).1 else old⟩ := by
  have hjoin : Extends c (aggregate c contributors).2 := joinFrom_extends _ _ _
  have hagg := aggregate_known hknown
  cases moved with
  | true =>
    refine ⟨hne, hknown.extends hjoin, hagg, fun d hd => ?_⟩
    rw [aggregate_again hknown hd]
    exact JoinContribution.equivalent_refl (Stored.known_extends hd hagg)
  | false =>
    obtain ⟨hold, heq⟩ := hmoved rfl
    have hold' := Stored.known_extends hjoin hold
    refine ⟨hne, hknown.extends hjoin, hold', fun d hd => ?_⟩
    rw [aggregate_again hknown hd]
    exact (JoinContribution.equivalent_extends hd hold' hagg).trans heq

theorem apply_fresh (hslot : map.slots.lookup key = none) (hp : Known ctx publisher)
    (he : entry.EntryKnown ctx) (hentry : entry ≠ .withdraw) :
    Applied map ctx key publisher entry (map.apply ctx key publisher entry join) := by
  cases entry with
  | withdraw => exact absurd rfl hentry
  | upsert value =>
    have hknown :
        ContributorsKnown ctx (AList.insert publisher value (∅ : AList fun _ : P => V)) := by
      intro q v hv
      rcases eq_or_ne q publisher with rfl | hq
      · obtain rfl := Option.some.inj ((AList.lookup_insert _).symm.trans hv)
        exact ⟨hp, he⟩
      · rw [AList.lookup_insert_ne hq] at hv
        cases hv
    have hne : (AList.insert publisher value (∅ : AList fun _ : P => V)).entries ≠ [] := nofun
    have hout : map.apply ctx key publisher (.upsert value) join =
        (true, ⟨(map.slots.erase key).insert key ⟨AList.insert publisher value ∅,
          (aggregate ctx (AList.insert publisher value (∅ : AList fun _ : P => V))).1⟩⟩,
          (aggregate ctx (AList.insert publisher value (∅ : AList fun _ : P => V))).2) := by
      unfold apply
      rw [hslot]
      rfl
    rw [hout]
    refine ⟨joinFrom_extends _ _ _, fun k hk => ?_, fun q hq => ?_, fun slot h => ?_, nofun, ?_⟩
    · rw [AList.lookup_insert_ne hk, AList.lookup_erase_ne hk]
    · rw [contribution, contribution, hslot, AList.lookup_insert]
      exact AList.lookup_insert_ne hq
    · rw [AList.lookup_insert] at h
      obtain rfl := Option.some.inj h
      exact exact_kept (bottom Ctx) true hne hknown nofun
    · rw [get, get, hslot, AList.lookup_insert]
      exact ⟨fun _ => ⟨rfl, fun h => nomatch h.1⟩, fun _ => rfl⟩

theorem apply_standing_eq (hslot : map.slots.lookup key = some slot)
    (hinhabited : slot.contributors.entries ≠ []) {contributors : AList fun _ : P => V} {c : Ctx}
    (hinstall : entry.install ctx slot.contributors publisher join = (contributors, c))
    {moved : Bool} (hmoved : moved =
      !equivalent (aggregate c contributors).2 slot.joined (aggregate c contributors).1) :
    map.apply ctx key publisher entry join = if contributors.entries.isEmpty then
        (moved, ⟨map.slots.erase key⟩, (aggregate c contributors).2)
      else (moved, ⟨(map.slots.erase key).insert key ⟨contributors,
        if moved then (aggregate c contributors).1 else slot.joined⟩⟩,
        (aggregate c contributors).2) := by
  have hold : slot.contributors.entries.isEmpty = false := by
    cases hentries : slot.contributors.entries with
    | nil => exact absurd hentries hinhabited
    | cons e es => rfl
  unfold apply
  simp only [hslot, Option.getD_some, hold, hinstall, hmoved]
  rfl

/-- An entry at a key where some publisher contributes. -/
theorem apply_standing (hslot : map.slots.lookup key = some slot)
    (hexact : slot.Exact ctx) (hp : Known ctx publisher) (he : entry.EntryKnown ctx) :
    Applied map ctx key publisher entry (map.apply ctx key publisher entry join) := by
  obtain ⟨contributors, c, hinstall⟩ :
      ∃ contributors c, entry.install ctx slot.contributors publisher join = (contributors, c) :=
    ⟨_, _, rfl⟩
  have hgrown := SlotEntry.install_extends hinstall
  have hknown := SlotEntry.install_known hinstall hexact.known hp he
  have hjoin : Extends c (aggregate c contributors).2 := joinFrom_extends _ _ _
  have hothers : ∀ q, q ≠ publisher → contributors.lookup q = map.contribution key q := fun q hq =>
    (SlotEntry.install_lookup_ne hinstall hq).trans (contribution_of_lookup hslot).symm
  rw [apply_standing_eq hslot hexact.inhabited hinstall rfl]
  cases hempty : contributors.entries with
  | nil =>
    -- The last contributor has withdrawn: the slot is dropped, and what is compared is bottom.
    obtain ⟨rfl, rfl⟩ := SlotEntry.install_eq_nil hinstall hempty
    have hagg : aggregate c contributors = (bottom Ctx, c) := by
      unfold aggregate orderedContributors
      rw [hempty]
      rfl
    have hnone := lookup_eq_none_of_entries hempty
    rw [hagg]
    show Applied map c key publisher .withdraw
      (!equivalent c slot.joined (bottom Ctx), ⟨map.slots.erase key⟩, c)
    have hgone : AList.lookup key (map.slots.erase key) = none := AList.lookup_erase key map.slots
    refine ⟨Store.extends_refl _, fun k hk => AList.lookup_erase_ne hk, fun q hq => ?_,
      fun other h => ?_, fun _ _ => hgone, ?_⟩
    · rw [← hothers q hq, hnone, contribution, hgone]
      rfl
    · rw [hgone] at h
      cases h
    · have hsole : map.SoleBottom c key publisher ↔
          equivalent c slot.joined (bottom Ctx) = true := by
        constructor
        · rintro ⟨other, hother, _, hbottom⟩
          obtain rfl := Option.some.inj (hslot.symm.trans hother)
          exact hbottom
        · intro hbottom
          refine ⟨slot, hslot, fun q v hv => ?_, hbottom⟩
          by_contra hq
          rw [← contribution_of_lookup hslot, ← hothers q hq, hnone] at hv
          cases hv
      rw [get_of_lookup hslot, get, hgone, hsole]
      cases equivalent c slot.joined (bottom Ctx) with
      | true => simp [sameAggregate]
      | false => simp [sameAggregate]
  | cons e es =>
    have hne : contributors.entries ≠ [] := by
      rw [hempty]
      exact nofun
    obtain ⟨moved, hmoved⟩ : ∃ moved, moved = !equivalent (aggregate c contributors).2 slot.joined
        (aggregate c contributors).1 := ⟨_, rfl⟩
    rw [← hmoved]
    have hkept := exact_kept slot.joined moved hne hknown fun hstill => by
      rw [hmoved, Bool.not_eq_false'] at hstill
      exact ⟨Stored.known_extends hgrown hexact.joined_known, hstill⟩
    generalize hkeep : (⟨contributors, if moved then (aggregate c contributors).1
      else slot.joined⟩ : ContributionSlot P V) = keep at hkept
    show Applied map ctx key publisher entry
      (moved, ⟨(map.slots.erase key).insert key keep⟩, (aggregate c contributors).2)
    have hhere : AList.lookup key ((map.slots.erase key).insert key keep) = some keep :=
      AList.lookup_insert _
    have hstays : ¬ (entry = .withdraw ∧ map.SoleBottom ctx key publisher) := by
      rintro ⟨rfl, other, hother, hsole, _⟩
      obtain rfl := Option.some.inj (hslot.symm.trans hother)
      have hhead : contributors.lookup e.1 = some e.2 :=
        AList.mem_lookup_iff.mpr (hempty ▸ List.mem_cons_self)
      obtain ⟨rfl, rfl⟩ := Prod.mk.inj hinstall
      rcases eq_or_ne e.1 publisher with heq | hq
      · rw [heq, AList.lookup_erase] at hhead
        cases hhead
      · rw [AList.lookup_erase_ne hq] at hhead
        exact hq (hsole e.1 e.2 hhead)
    refine ⟨Store.extends_trans hgrown hjoin, fun k hk => ?_, fun q hq => ?_, fun other h => ?_,
      fun hentry hsole => absurd ⟨hentry, hsole⟩ hstays, ?_⟩
    · exact (AList.lookup_insert_ne hk).trans (AList.lookup_erase_ne hk)
    · rw [← hothers q hq, contribution, hhere, ← hkeep]
      rfl
    · obtain rfl := Option.some.inj (hhere.symm.trans h)
      exact hkept
    · rw [get_of_lookup hslot, get, hhere, ← hkeep]
      cases moved with
      | true =>
        have hnot := Bool.not_eq_true' _ ▸ hmoved.symm
        exact ⟨fun _ => ⟨hnot, hstays⟩, fun _ => rfl⟩
      | false =>
        refine ⟨nofun, fun h => absurd h.1 ?_⟩
        have hold := Stored.known_extends (Store.extends_trans hgrown hjoin) hexact.joined_known
        simp [sameAggregate, JoinContribution.equivalent_refl hold]

theorem apply_applied (join : Bool) (hexact : map.Exact ctx) (hp : Known ctx publisher)
    (he : entry.EntryKnown ctx) (hown : entry = .withdraw → map.contribution key publisher ≠ none) :
    Applied map ctx key publisher entry (map.apply ctx key publisher entry join) := by
  cases hslot : map.slots.lookup key with
  | some slot => exact apply_standing hslot (hexact key slot hslot) hp he
  | none =>
    refine apply_fresh hslot hp he fun hentry => hown hentry ?_
    rw [contribution, hslot]
    rfl

end Apply

/-! ## One call -/

variable {map : ContributionMap K P V}

theorem Exact.get_known {ctx : Ctx} (h : map.Exact ctx) (key : K)
    (v : V) (hget : map.get key = some v) : Known ctx v := by
  obtain ⟨slot, hslot, rfl⟩ := Option.map_eq_some_iff.mp hget
  exact (h key slot hslot).joined_known

theorem Exact.sole_extends {c c' : Ctx} (h : map.Exact c)
    (hc : Extends c c') (key : K) (publisher : P) :
    map.SoleBottom c' key publisher ↔ map.SoleBottom c key publisher := by
  have hstable : ∀ slot, map.slots.lookup key = some slot →
      equivalent c' slot.joined (bottom Ctx) = equivalent c slot.joined (bottom Ctx) :=
    fun slot hslot => JoinContribution.equivalent_extends hc (h key slot hslot).joined_known
      (JoinContribution.known_bottom c)
  constructor
  · rintro ⟨slot, hslot, hsole, hbottom⟩
    exact ⟨slot, hslot, hsole, hstable slot hslot ▸ hbottom⟩
  · rintro ⟨slot, hslot, hsole, hbottom⟩
    exact ⟨slot, hslot, hsole, (hstable slot hslot).trans hbottom⟩

theorem sameAggregate_self {ctx : Ctx} {a : Option V} (h : ∀ v, a = some v → Known ctx v) :
    sameAggregate ctx a a = true := by
  cases a with
  | none => rfl
  | some v => exact JoinContribution.equivalent_refl (h v rfl)

theorem sameAggregate_extends {c c' : Ctx} (hc : Extends c c') {a b : Option V}
    (ha : ∀ v, a = some v → Known c v) (hb : ∀ v, b = some v → Known c v) :
    sameAggregate c' a b = sameAggregate c a b := by
  cases a with
  | none => cases b <;> rfl
  | some v =>
    cases b with
    | none => rfl
    | some w => exact JoinContribution.equivalent_extends hc (ha v rfl) (hb w rfl)

theorem Applied.exact_map {ctx : Ctx} {key : K} {publisher : P}
    {entry : SlotEntry V} {out : Bool × ContributionMap K P V × Ctx}
    (h : Applied map ctx key publisher entry out) (hexact : map.Exact ctx) :
    out.2.1.Exact out.2.2 := by
  intro k slot hslot
  rcases eq_or_ne k key with rfl | hk
  · exact h.exact slot hslot
  · rw [h.elsewhere k hk] at hslot
    exact (hexact k slot hslot).extends h.grown

theorem get_congr {map map' : ContributionMap K P V} {key : K}
    (h : map'.slots.lookup key = map.slots.lookup key) : map'.get key = map.get key := by
  rw [get, get, h]

theorem contribution_congr {map map' : ContributionMap K P V} {key : K}
    (h : map'.slots.lookup key = map.slots.lookup key) (publisher : P) :
    map'.contribution key publisher = map.contribution key publisher := by
  rw [contribution, contribution, h]

theorem sole_congr {map map' : ContributionMap K P V} {ctx : Ctx} {key : K}
    (h : map'.slots.lookup key = map.slots.lookup key) (publisher : P) :
    map'.SoleBottom ctx key publisher ↔ map.SoleBottom ctx key publisher := by
  rw [SoleBottom, SoleBottom, h]

/-- What applying a publisher's entries does to the store. -/
structure AppliedAll (map : ContributionMap K P V) (ctx : Ctx) (publisher : P)
    (entries : List (K × SlotEntry V)) (out : List K × ContributionMap K P V × Ctx) : Prop where
  grown : Extends ctx out.2.2
  exact : out.2.1.Exact out.2.2
  elsewhere : ∀ k, k ∉ entries.map Prod.fst → out.2.1.slots.lookup k = map.slots.lookup k
  others : ∀ k q, q ≠ publisher → out.2.1.contribution k q = map.contribution k q
  dropped : ∀ k, (k, .withdraw) ∈ entries → map.SoleBottom ctx k publisher →
    out.2.1.slots.lookup k = none
  changed_iff : ∀ k, k ∈ out.1 ↔ sameAggregate out.2.2 (map.get k) (out.2.1.get k) = false ∧
    ¬ ((k, .withdraw) ∈ entries ∧ map.SoleBottom ctx k publisher)

theorem applyAll_applied {publisher : P} {join : Bool} {entries : List (K × SlotEntry V)}
    {ctx : Ctx} (hexact : map.Exact ctx) (hp : Known ctx publisher)
    (he : ∀ e ∈ entries, e.2.EntryKnown ctx)
    (hown : ∀ k, (k, .withdraw) ∈ entries → map.contribution k publisher ≠ none)
    (hnodup : (entries.map Prod.fst).Nodup) :
    AppliedAll map ctx publisher entries (applyAll publisher join map ctx entries) := by
  induction entries generalizing map ctx with
  | nil =>
    refine ⟨Store.extends_refl ctx, hexact, fun _ _ => rfl, fun _ _ _ => rfl, nofun, fun k => ?_⟩
    have hsame := sameAggregate_self (hexact.get_known k)
    exact ⟨nofun, fun h => absurd (hsame.symm.trans h.1) nofun⟩
  | cons e entries ih =>
    obtain ⟨key, entry⟩ := e
    obtain ⟨hentry, hentries⟩ := List.forall_mem_cons.mp he
    obtain ⟨hkey, hnodup⟩ := List.nodup_cons.mp hnodup
    have hhead := apply_applied join hexact hp hentry fun h => hown key (h ▸ List.mem_cons_self)
    rw [applyAll]
    generalize map.apply ctx key publisher entry join = head at hhead ⊢
    obtain ⟨moved, map₁, ctx₁⟩ := head
    have hexact₁ : map₁.Exact ctx₁ := hhead.exact_map hexact
    have hne : ∀ {k : K} {entry' : SlotEntry V}, (k, entry') ∈ entries → k ≠ key :=
      fun hk heq => hkey (List.mem_map.mpr ⟨_, hk, heq⟩)
    have htail := ih hexact₁ (Stored.known_extends hhead.grown hp)
      (fun e he => (hentries e he).extends hhead.grown)
      (fun k hk => by
        rw [contribution_congr (hhead.elsewhere k (hne hk))]
        exact hown k (List.mem_cons_of_mem _ hk)) hnodup
    show AppliedAll map ctx publisher ((key, entry) :: entries)
      (if moved then key :: (applyAll publisher join map₁ ctx₁ entries).1
        else (applyAll publisher join map₁ ctx₁ entries).1,
        (applyAll publisher join map₁ ctx₁ entries).2)
    generalize applyAll publisher join map₁ ctx₁ entries = tail at htail ⊢
    obtain ⟨changed, map₂, ctx₂⟩ := tail
    dsimp only at hhead htail ⊢
    refine ⟨Store.extends_trans hhead.grown htail.grown, htail.exact, fun k hk => ?_,
      fun k q hq => ?_, fun k hk hsole => ?_, fun k => ?_⟩
    · rw [List.map_cons, List.mem_cons, not_or] at hk
      exact (htail.elsewhere k hk.2).trans (hhead.elsewhere k hk.1)
    · rw [htail.others k q hq]
      rcases eq_or_ne k key with rfl | hk
      · exact hhead.others q hq
      · exact contribution_congr (hhead.elsewhere k hk) q
    · rcases List.mem_cons.mp hk with heq | hk
      · obtain ⟨rfl, rfl⟩ := Prod.mk.inj heq
        exact (htail.elsewhere k hkey).trans (hhead.dropped rfl hsole)
      · refine htail.dropped k hk ((sole_congr (hhead.elsewhere k (hne hk)) publisher).mpr ?_)
        exact (hexact.sole_extends hhead.grown k publisher).mpr hsole
    · rcases eq_or_ne k key with rfl | hk
      · -- The later entries leave the first key alone.
        have hlater := htail.elsewhere k hkey
        have hunchanged : k ∉ changed := by
          intro hmem
          have hsame := sameAggregate_self fun v hv =>
            Stored.known_extends htail.grown (hexact₁.get_known k v hv)
          rw [htail.changed_iff, get_congr hlater, hsame] at hmem
          exact nomatch hmem.1
        have hmoved : k ∈ (if moved then k :: changed else changed) ↔ moved = true := by
          cases moved with
          | true => exact ⟨fun _ => rfl, fun _ => List.mem_cons_self⟩
          | false => exact ⟨fun h => absurd h hunchanged, nofun⟩
        have hwithdraw : (k, SlotEntry.withdraw) ∈ (k, entry) :: entries ↔ entry = .withdraw := by
          constructor
          · intro h
            rcases List.mem_cons.mp h with h | h
            · exact (Prod.mk.inj h).2.symm
            · exact absurd rfl (hne h)
          · rintro rfl
            exact List.mem_cons_self
        refine hmoved.trans (hhead.moved_iff.trans ?_)
        rw [hwithdraw, get_congr hlater, sameAggregate_extends htail.grown
          (fun v hv => Stored.known_extends hhead.grown (hexact.get_known k v hv))
          (hexact₁.get_known k)]
      · have hsame := hhead.elsewhere k hk
        have hmem : k ∈ (if moved then key :: changed else changed) ↔ k ∈ changed := by
          cases moved with
          | true => exact List.mem_cons.trans (or_iff_right hk)
          | false => exact Iff.rfl
        have hwithdraw : (k, SlotEntry.withdraw) ∈ (key, entry) :: entries ↔
            (k, SlotEntry.withdraw) ∈ entries :=
          List.mem_cons.trans (or_iff_right fun h => hk (Prod.mk.inj h).1)
        rw [hmem, htail.changed_iff, hwithdraw, get_congr hsame,
          sole_congr hsame, hexact.sole_extends hhead.grown]

end ContributionMap

/-! ## Runs -/

/-- A call of one of the four arms. -/
inductive Call (K P V : Type) where
  | conclude (publisher : P) (previousOutputKeys : List K) (next : AList fun _ : K => V)
      (rebased : Bool)
  | concludeExact (publisher : P) (previousOutputKeys : List K) (next : AList fun _ : K => V)
  | concludePreservingFrontier (publisher : P) (previousOutputKeys : List K)
      (next : AList fun _ : K => V)
  | extend (publisher : P) (next : AList fun _ : K => V)

namespace Call

def publisher : Call K P V → P
  | .conclude p _ _ _ | .concludeExact p _ _ | .concludePreservingFrontier p _ _ | .extend p _ => p

def next : Call K P V → AList fun _ : K => V
  | .conclude _ _ n _ | .concludeExact _ _ n | .concludePreservingFrontier _ _ n | .extend _ n => n

def perform (map : ContributionMap K P V) (ctx : Ctx) :
    Call K P V → ContributionReplace K × ContributionMap K P V × Ctx
  | .conclude p previous n rebased => map.conclude ctx p previous n rebased
  | .concludeExact p previous n => map.concludeExact ctx p previous n
  | .concludePreservingFrontier p previous n => map.concludePreservingFrontier ctx p previous n
  | .extend p n => map.extend ctx p n

/-- The previous output keys are the keys the publisher contributes to. -/
def OwnKeys (map : ContributionMap K P V) : Call K P V → Prop
  | .conclude p previous _ _ | .concludeExact p previous _
  | .concludePreservingFrontier p previous _ =>
    ∀ key, key ∈ previous ↔ map.contribution key p ≠ none
  | .extend _ _ => True

/-- The call drops one of the publisher's keys. -/
def Withdraws : Call K P V → K → Prop
  | .conclude _ previous n _, key | .concludeExact _ previous n, key =>
    key ∈ previous ∧ n.lookup key = none
  | .concludePreservingFrontier _ _ _, _ | .extend _ _, _ => False

/-- What the callers of the store see to: the context has the handles that they pass, and they know
the keys that they published. -/
def Allowed (state : ContributionMap K P V × Ctx) (call : Call K P V) : Prop :=
  call.OwnKeys state.1 ∧ Known state.2 call.publisher ∧
    ∀ key value, call.next.lookup key = some value → Known state.2 value

/-- The call withdraws the last contribution to a key whose aggregate is equivalent to bottom. -/
def DropsBottom (map : ContributionMap K P V) (ctx : Ctx) (call : Call K P V) : Prop :=
  ∃ key, call.Withdraws key ∧ map.SoleBottom ctx key call.publisher

def step (state : ContributionMap K P V × Ctx) (call : Call K P V) :
    Option ((ContributionMap K P V × Ctx) × List (ContributionReplace K)) :=
  some ((call.perform state.1 state.2).2, [(call.perform state.1 state.2).1])

theorem orderedNext_entries (ctx : Ctx) (next : AList fun _ : K => V) :
    ((ContributionMap.orderedNext ctx next).map Prod.fst).Nodup ∧
      (∀ k, (k, SlotEntry.withdraw) ∉ ContributionMap.orderedNext ctx next) ∧
      ∀ k v, (k, SlotEntry.upsert v) ∈ ContributionMap.orderedNext ctx next →
        next.lookup k = some v := by
  have hperm := semanticSort_perm ctx Sigma.fst next.entries
  refine ⟨?_, fun k hk => ?_, fun k v hk => ?_⟩
  · rw [ContributionMap.orderedNext, List.map_map]
    exact (hperm.map Sigma.fst).nodup_iff.mpr next.nodupKeys
  · obtain ⟨e, _, he⟩ := List.mem_map.mp hk
    exact nomatch (Prod.mk.inj he).2
  · obtain ⟨e, hmem, he⟩ := List.mem_map.mp hk
    obtain ⟨rfl, hv⟩ := Prod.mk.inj he
    obtain rfl := SlotEntry.upsert.inj hv
    exact AList.mem_lookup_iff.mpr (hperm.mem_iff.mp hmem)

open ContributionMap

theorem concludedEntry_fst (next : AList fun _ : K => V) (key : K) :
    (concludedEntry next key).1 = key := by
  unfold concludedEntry
  cases next.lookup key <;> rfl

theorem concludedEntry_eq_withdraw {next : AList fun _ : K => V} {key k : K} :
    concludedEntry next key = (k, .withdraw) ↔ key = k ∧ next.lookup k = none := by
  unfold concludedEntry
  cases hnext : next.lookup key with
  | none => exact ⟨fun h => by cases h; exact ⟨rfl, hnext⟩, fun h => by rw [h.1]⟩
  | some value =>
    refine ⟨nofun, fun h => ?_⟩
    rw [← h.1, hnext] at h
    exact nomatch h.2

theorem concludedEntry_eq_upsert {next : AList fun _ : K => V} {key k : K} {v : V}
    (h : concludedEntry next key = (k, .upsert v)) : next.lookup k = some v := by
  unfold concludedEntry at h
  cases hnext : next.lookup key with
  | none =>
    rw [hnext] at h
    cases h
  | some value =>
    rw [hnext] at h
    cases h
    exact hnext

variable {map : ContributionMap K P V} {ctx : Ctx}

theorem conclude_applied {publisher : P} {previous : List K} {next : AList fun _ : K => V}
    (rebased : Bool) (hexact : map.Exact ctx)
    (hown : ∀ key, key ∈ previous ↔ map.contribution key publisher ≠ none)
    (hp : Known ctx publisher) (hnext : ∀ key v, next.lookup key = some v → Known ctx v) :
    ∃ entries, AppliedAll map ctx publisher entries
        ((map.conclude ctx publisher previous next rebased).1.changedKeys,
          (map.conclude ctx publisher previous next rebased).2) ∧
      ∀ k, (k, .withdraw) ∈ entries ↔ k ∈ previous ∧ next.lookup k = none := by
  have hperm := semanticSort_perm ctx (fun key => key) (previous ++ next.keys).dedup
  have hwithdraw : ∀ k, (k, SlotEntry.withdraw) ∈ (semanticSort ctx (fun key => key)
      (previous ++ next.keys).dedup).map (concludedEntry next) ↔
      k ∈ previous ∧ next.lookup k = none := by
    intro k
    rw [List.mem_map]
    constructor
    · rintro ⟨key, hkey, he⟩
      obtain ⟨rfl, hnone⟩ := concludedEntry_eq_withdraw.mp he
      rcases List.mem_append.mp (List.mem_dedup.mp (hperm.mem_iff.mp hkey)) with h | h
      · exact ⟨h, hnone⟩
      · exact absurd h (AList.lookup_eq_none.mp hnone)
    · rintro ⟨hprev, hnone⟩
      refine ⟨k, ?_, concludedEntry_eq_withdraw.mpr ⟨rfl, hnone⟩⟩
      exact hperm.mem_iff.mpr (List.mem_dedup.mpr (List.mem_append_left _ hprev))
  refine ⟨_, applyAll_applied hexact hp (fun e he => ?_) (fun k hk => ?_) ?_, hwithdraw⟩
  · obtain ⟨key, _, rfl⟩ := List.mem_map.mp he
    cases hentry : concludedEntry next key with
    | mk k entry =>
      cases entry with
      | upsert v => exact hnext k v (concludedEntry_eq_upsert hentry)
      | withdraw => trivial
  · exact (hown k).mp ((hwithdraw k).mp hk).1
  · rw [List.map_map, show Prod.fst ∘ concludedEntry next = fun key => key from
      funext (concludedEntry_fst next), List.map_id']
    exact hperm.nodup_iff.mpr (List.nodup_dedup _)

theorem orderedNext_applied {publisher : P} {next : AList fun _ : K => V} (hexact : map.Exact ctx)
    (hp : Known ctx publisher) (hnext : ∀ key v, next.lookup key = some v → Known ctx v) :
    AppliedAll map ctx publisher (orderedNext ctx next)
      (applyAll publisher true map ctx (orderedNext ctx next)) := by
  obtain ⟨hnodup, hnone, hvalues⟩ := orderedNext_entries ctx next
  refine applyAll_applied hexact hp (fun e he => ?_) (fun k hk => absurd hk (hnone k)) hnodup
  obtain ⟨k, entry⟩ := e
  cases entry with
  | upsert v => exact hnext k v (hvalues k v he)
  | withdraw => trivial

theorem perform_applied {call : Call K P V} (hexact : map.Exact ctx)
    (hallowed : call.Allowed (map, ctx)) : ∃ entries, AppliedAll map ctx call.publisher entries
        ((call.perform map ctx).1.changedKeys, (call.perform map ctx).2) ∧
      ∀ k, (k, .withdraw) ∈ entries ↔ call.Withdraws k := by
  obtain ⟨hown, hp, hnext⟩ := hallowed
  cases call with
  | conclude p previous n rebased => exact conclude_applied rebased hexact hown hp hnext
  | concludeExact p previous n => exact conclude_applied true hexact hown hp hnext
  | concludePreservingFrontier p previous n =>
    exact ⟨_, orderedNext_applied hexact hp hnext, fun k =>
      ⟨fun h => (orderedNext_entries ctx n).2.1 k h, nofun⟩⟩
  | extend p n =>
    refine ⟨_, ?_, fun k => ⟨fun h => (orderedNext_entries ctx n).2.1 k h, nofun⟩⟩
    have happlied : AppliedAll map ctx p (orderedNext ctx n) _ :=
      orderedNext_applied hexact hp hnext
    cases hentries : n.entries with
    | nil =>
      have hnil : orderedNext ctx n = [] := by
        rw [orderedNext, hentries]
        rfl
      rw [hnil] at happlied ⊢
      simp only [perform, ContributionMap.extend, hentries]
      exact happlied
    | cons e es =>
      simp only [perform, ContributionMap.extend, hentries]
      exact happlied

theorem run_exact {ctx₀ : Ctx} {calls : List (Call K P V)} {replies : List (ContributionReplace K)}
    {state : ContributionMap K P V × Ctx}
    (h : Base.Run step Allowed (ContributionMap.new, ctx₀) calls replies state) :
    state.1.Exact state.2 := by
  refine h.inv (I := fun state => state.1.Exact state.2) nofun ?_
  rintro ⟨map, ctx⟩ call state' replies hexact hallowed hstep
  obtain ⟨rfl, rfl⟩ := Prod.mk.inj (Option.some.inj hstep)
  obtain ⟨_, happlied, _⟩ := perform_applied hexact hallowed
  exact happlied.exact

/-- In every run of the store, a key that is present has a contributor and an aggregate equivalent
to the join of its contributors.  A call leaves the contributions of other publishers alone, and it
reports exactly the keys whose aggregate it changed, unless it withdraws the last contribution to a
key whose aggregate is equivalent to bottom. -/
theorem run_contributions_exact {ctx₀ : Ctx} {calls : List (Call K P V)}
    {replies : List (ContributionReplace K)}
    (h : Base.Run step Allowed (ContributionMap.new, ctx₀) calls replies (map, ctx)) :
    (∀ key slot, map.slots.lookup key = some slot → slot.contributors.entries ≠ [] ∧
      equivalent ctx slot.joined
        (joinContributions ctx (orderedContributors ctx slot.contributors)).1 = true) ∧
    ∀ call, Allowed (map, ctx) call → (∀ key q, q ≠ call.publisher →
        (call.perform map ctx).2.1.contribution key q = map.contribution key q) ∧
      ((∀ key, key ∈ (call.perform map ctx).1.changedKeys ↔
          sameAggregate (call.perform map ctx).2.2 (map.get key)
            ((call.perform map ctx).2.1.get key) = false) ↔ ¬ DropsBottom map ctx call) := by
  have hexact := run_exact h
  refine ⟨fun key slot hslot => ?_, fun call hallowed => ?_⟩
  · have hkept := hexact key slot hslot
    exact ⟨hkept.inhabited, hkept.joined ctx (Store.extends_refl ctx)⟩
  · obtain ⟨entries, happlied, hwithdraw⟩ := perform_applied hexact hallowed
    refine ⟨happlied.others, fun hchanged => ?_, fun hnone key => ?_⟩
    · rintro ⟨key, hdrop, hsole⟩
      have hreport := hchanged key
      have hdiffers : sameAggregate (call.perform map ctx).2.2 (map.get key)
          ((call.perform map ctx).2.1.get key) = false := by
        have hgone := happlied.dropped key ((hwithdraw key).mpr hdrop) hsole
        obtain ⟨slot, hslot, _⟩ := hsole
        rw [get_of_lookup hslot, ContributionMap.get, hgone]
        rfl
      rw [happlied.changed_iff, hwithdraw] at hreport
      exact (hreport.mpr hdiffers).2 ⟨hdrop, hsole⟩
    · rw [happlied.changed_iff, hwithdraw]
      exact and_iff_left fun h => hnone ⟨key, h⟩

/-! ### An empty slot -/

instance : Store Unit where
  Extends _ _ := True
  extends_refl _ := trivial
  extends_trans _ _ := trivial

instance : Stored Unit Nat where
  Known _ _ := True
  known_extends _ _ := trivial

instance : SemanticOrd Unit Nat where
  semanticCmp _ := compare
  cmp_extends _ _ _ := rfl

/-- Publisher 7 says of slot 0 that no source reaches it. -/
def emptySlot : Call Nat Nat (IncomingInputSources Nat) :=
  .concludeExact 7 [] (AList.singleton 0 ⟨[]⟩)

/-- The same publisher finds a source. -/
def fillSlot : Call Nat Nat (IncomingInputSources Nat) :=
  .concludeExact 7 [0] (AList.singleton 0 ⟨[3]⟩)

/-- The same publisher no longer speaks of the slot. -/
def withdrawSlot : Call Nat Nat (IncomingInputSources Nat) := .concludeExact 7 [0] ∅

def emptySlotMap : ContributionMap Nat Nat (IncomingInputSources Nat) :=
  (emptySlot.perform ContributionMap.new ()).2.1

theorem emptySlot_run : Base.Run step Allowed (ContributionMap.new, ()) [emptySlot] [⟨[0], [0]⟩]
      (emptySlotMap, ()) := by
  show Base.Run step Allowed (ContributionMap.new, ()) ([] ++ [emptySlot]) ([] ++ [⟨[0], [0]⟩])
    (emptySlotMap, ())
  refine .snoc .start ⟨fun key => ?_, trivial, fun key value h => ?_⟩ rfl
  · exact ⟨nofun, fun h => absurd rfl h⟩
  · obtain ⟨_, rfl⟩ : key = 0 ∧ (⟨[]⟩ : IncomingInputSources Nat) = value := by
      have hmem := AList.mem_lookup_iff.mp h
      cases List.mem_singleton.mp hmem
      exact ⟨rfl, rfl⟩
    exact nofun

theorem emptySlotMap_own (key : Nat) : key ∈ [0] ↔ emptySlotMap.contribution key 7 ≠ none := by
  have hslots : emptySlotMap.slots = AList.singleton 0 ⟨AList.singleton 7 ⟨[]⟩, ⟨[]⟩⟩ := rfl
  rw [List.mem_singleton, ContributionMap.contribution, hslots]
  constructor
  · rintro rfl
    exact nofun
  · intro h
    by_contra hkey
    rw [AList.lookup_eq_none.mpr fun hmem => hkey (List.mem_singleton.mp hmem)] at h
    exact h rfl

theorem run_contributions_exact_fillSlot : ¬ DropsBottom emptySlotMap () fillSlot ∧
    ∀ key, key ∈ (fillSlot.perform emptySlotMap ()).1.changedKeys ↔
      sameAggregate (fillSlot.perform emptySlotMap ()).2.2 (emptySlotMap.get key)
        ((fillSlot.perform emptySlotMap ()).2.1.get key) = false := by
  have hkeeps : ¬ DropsBottom emptySlotMap () fillSlot := by
    rintro ⟨key, ⟨hkey, hnext⟩, _⟩
    obtain rfl := List.mem_singleton.mp hkey
    cases hnext
  refine ⟨hkeeps, (((run_contributions_exact emptySlot_run).2 fillSlot ?_).2).mpr hkeeps⟩
  refine ⟨emptySlotMap_own, trivial, fun key value _ => ?_⟩
  exact fun _ _ => trivial

-- The comparison with bottom finds nothing moved, and the slot is gone.
theorem withdrawn_bottom_unreported :
    Base.Run step Allowed (ContributionMap.new, ()) [emptySlot] [⟨[0], [0]⟩] (emptySlotMap, ()) ∧
    Allowed (emptySlotMap, ()) withdrawSlot ∧
    ¬ ∀ key, key ∈ (withdrawSlot.perform emptySlotMap ()).1.changedKeys ↔
      sameAggregate (withdrawSlot.perform emptySlotMap ()).2.2 (emptySlotMap.get key)
        ((withdrawSlot.perform emptySlotMap ()).2.1.get key) = false := by
  refine ⟨emptySlot_run, ⟨emptySlotMap_own, trivial, nofun⟩, fun h => ?_⟩
  exact absurd ((h 0).mpr rfl) (by decide)

end Call

end Fz.Facts
