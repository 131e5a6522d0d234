import DotnetPal.Boundary.Handlers

/-!
# Enabled notifications stay enabled

Several threads enable and disable the kinds of notifications. An enable whose port call fails takes
the bit back if it was clear when it set it; that undoes an enable that set the same bit meanwhile.
Where no enable takes back a bit that another one has set since, a bit that an enable left set stays
set until a disable of its kind starts.
-/

open Function

namespace DotnetPal.Boundary.Handlers

open Programs Phase

/-- An enable takes the bit back only where no other enable of the kind has set it since. -/
def Action.Unovertaken : Action → Handlers → Prop
  | .retract id, w => ∀ kind, w.phases id ≠ .retracting kind true
  | _, _ => True

/-- The group is installed and has the kind. -/
def Open (w : Handlers) (kind : ℕ) : Prop := w.state = .installed ∧ valid .notifications kind = true

/-- The bit of a kind is set, nobody clears it, and no call but `except` may take it back. -/
structure Held (w : Handlers) (kind : ℕ) (except : Option ℕ) : Prop where
  opened : w.Open kind
  bit : w.enabled kind = true
  undisturbed : ∀ refusal ∈ w.refusals, refusal.2 ≠ kind
  safe : ∀ id, except ≠ some id → (w.phases id).risky kind = false

structure Kept (w : Handlers) : Prop where
  refusals : ∀ id kind, (w.phases id).disables kind = true → (id, kind) ∈ w.refusals
  wanting : ∀ id kind, w.phases id = .wanting kind true → w.Open kind ∧
    ∀ refusal ∈ w.refusals, refusal.2 ≠ kind
  sure : ∀ id kind, (w.phases id).sure kind = true → Held w kind (some id)
  kept : ∀ kind, w.kept kind = true → Held w kind none

variable {w w' : Handlers} {id kind : ℕ} {phase : Phase}

theorem kept_initial : Kept initial where
  refusals _ _ h := by simp [initial, disables] at h
  wanting _ _ h := by simp [initial] at h
  sure _ _ h := by simp [initial, sure] at h
  kept _ h := by simp [initial] at h

/-- What a call relies on after a step of another one: on no bit of a kind that is not `alive`, and
not on the disables of a kind that is not `calm`. -/
structure Recedes (alive calm : ℕ → Prop) (before after : Phase) : Prop where
  disables : ∀ found, after.disables found = true → before.disables found = true
  wanting : ∀ found, after = .wanting found true → before = .wanting found true ∧ calm found
  sure : ∀ found, after.sure found = true → before.sure found = true ∧ alive found
  risky : ∀ found, after.risky found = true → before.risky found = true

theorem Recedes.refl {alive : ℕ → Prop} (hsure : ∀ x, phase.sure x = true → alive x) :
    Recedes alive (fun _ ↦ True) phase phase :=
  ⟨fun _ h ↦ h, fun _ h ↦ ⟨h, trivial⟩, fun x h ↦ ⟨h, hsure x h⟩, fun _ h ↦ h⟩

theorem recedes_overtake : Recedes (fun _ ↦ True) (fun _ ↦ True) phase (phase.overtake kind) := by
  refine ⟨fun x h ↦ ?_, fun x h ↦ ⟨?_, trivial⟩, fun x h ↦ ⟨?_, trivial⟩, fun x h ↦ ?_⟩
  · cases phase <;> exact h
  · cases phase <;> simp_all [overtake]
  · cases phase <;> exact h
  · cases phase <;> simp_all [overtake, risky]

theorem risky_overtake_self : (phase.overtake kind).risky kind = false := by
  cases phase <;> simp [overtake, risky] <;> grind

theorem recedes_disturb : Recedes (· ≠ kind) (· ≠ kind) phase (phase.disturb kind) := by
  refine ⟨fun x h ↦ ?_, fun x h ↦ ?_, fun x h ↦ ?_, fun x h ↦ ?_⟩
  · cases phase <;> exact h
  · cases phase <;> simp_all [disturb]; grind
  · cases phase <;> simp_all [disturb, sure]; grind
  · cases phase <;> exact h

variable (h : Kept w)
include h

/-- A step of one call. The bits of the `alive` kinds stay set, and no disable of a
`calm` kind starts. -/
theorem Kept.step (id : ℕ) (alive calm : ℕ → Prop) (hopen : ∀ x, w.Open x → w'.Open x)
    (hcalm : ∀ x, alive x → calm x)
    (hothers : ∀ j, j ≠ id → Recedes alive calm (w.phases j) (w'.phases j))
    (hbits : ∀ x, alive x → w.enabled x = true → w'.enabled x = true)
    (hnew : ∀ refusal ∈ w'.refusals, calm refusal.2 → refusal ∈ w.refusals)
    (hold : ∀ refusal ∈ w.refusals, refusal.1 ≠ id → refusal ∈ w'.refusals)
    (hdisables : ∀ x, (w'.phases id).disables x = true → (id, x) ∈ w'.refusals)
    (hwanting : ∀ x, w'.phases id = .wanting x true → w'.Open x ∧ ∀ refusal ∈ w'.refusals, refusal.2 ≠ x)
    (hrisky : ∀ x, (w'.phases id).risky x = true → (w.phases id).risky x = true ∨ w.enabled x = false)
    (hsure : ∀ x, (w'.phases id).sure x = true → Held w' x (some id))
    (hkept : ∀ x, w'.kept x = true → w.kept x = true ∧ alive x ∨ Held w' x none) : Kept w' := by
  have hheld : ∀ x except, alive x → Held w x except → Held w' x except := by
    intro x except halive hheld
    refine ⟨hopen x hheld.opened, hbits x halive hheld.bit, fun refusal hrefusal heq ↦ ?_, fun j hj ↦ ?_⟩
    · exact hheld.undisturbed refusal (hnew refusal hrefusal (heq ▸ hcalm x halive)) heq
    · rw [← Bool.not_eq_true]
      intro hrisk
      by_cases hid : j = id
      · subst hid
        rcases hrisky x hrisk with hbefore | hclear
        · simp [hheld.safe j hj] at hbefore
        · simp [hheld.bit] at hclear
      · simpa [hheld.safe j hj] using (hothers j hid).risky x hrisk
  refine ⟨fun j x hj ↦ ?_, fun j x hj ↦ ?_, fun j x hj ↦ ?_, fun x hx ↦ ?_⟩
  · by_cases hid : j = id
    · exact hid ▸ hdisables x (hid ▸ hj)
    · exact hold _ (h.refusals j x ((hothers j hid).disables x hj)) hid
  · by_cases hid : j = id
    · exact hwanting x (hid ▸ hj)
    · obtain ⟨hwas, hstays⟩ := (hothers j hid).wanting x hj
      obtain ⟨hopened, hfree⟩ := h.wanting j x hwas
      exact ⟨hopen x hopened, fun refusal hrefusal heq ↦
        hfree refusal (hnew refusal hrefusal (heq ▸ hstays)) heq⟩
  · by_cases hid : j = id
    · exact hid ▸ hsure x (hid ▸ hj)
    · obtain ⟨hwas, halive⟩ := (hothers j hid).sure x hj
      exact hheld x _ halive (h.sure j x hwas)
  · rcases hkept x hx with ⟨hwas, halive⟩ | hnone
    · exact hheld x none halive (h.kept x hwas)
    · exact hnone

/-- A call takes a step that leaves the bits and the disables alone. -/
theorem Kept.move (hopen : ∀ kind, w.Open kind → w'.Open kind)
    (hdisables : ∀ kind, phase.disables kind = false) (hsure : ∀ kind, phase.sure kind = false)
    (hrisky : ∀ kind, phase.risky kind = true → (w.phases id).risky kind = true)
    (hwanting : ∀ kind, phase = .wanting kind true → w.Open kind ∧ ∀ refusal ∈ w.refusals, refusal.2 ≠ kind)
    (henabled : w'.enabled = w.enabled) (hrefusals : w'.refusals = w.refusals) (hkept : w'.kept = w.kept)
    (hphases : w'.phases = update w.phases id phase) : Kept w' := by
  have hself : w'.phases id = phase := by rw [hphases, update_self]
  refine h.step id (fun _ ↦ True) (fun _ ↦ True) hopen (fun _ halive ↦ halive) (fun j hne ↦ ?_)
    (fun _ _ hbit ↦ henabled ▸ hbit) (fun _ hmem _ ↦ hrefusals ▸ hmem)
      (fun _ hmem _ ↦ hrefusals ▸ hmem) ?_ ?_ ?_ ?_
    fun _ hx ↦ .inl ⟨hkept ▸ hx, trivial⟩
  · rw [hphases, update_of_ne hne]
    exact .refl fun _ _ ↦ trivial
  · simp [hself, hdisables]
  · rw [hself, hrefusals]
    exact fun x hx ↦ ⟨hopen x (hwanting x hx).1, (hwanting x hx).2⟩
  · rw [hself]
    exact fun x hx ↦ .inl (hrisky x hx)
  · simp [hself, hsure]

/-- A step of an install or of a delivery. -/
theorem Kept.aside (hopen : ∀ kind, w.Open kind → w'.Open kind)
    (hp : phase = .idle ∨ phase.installs = true ∨ phase.held.isSome = true)
    (henabled : w'.enabled = w.enabled) (hrefusals : w'.refusals = w.refusals) (hkept : w'.kept = w.kept)
    (hphases : w'.phases = update w.phases id phase) : Kept w' := by
  refine h.move hopen (fun kind ↦ ?_) (fun kind ↦ ?_) (fun kind hrisky ↦ ?_)
    (fun kind hwanting ↦ ?_) henabled hrefusals hkept hphases
  · cases phase <;> simp_all [installs, held, disables]
  · cases phase <;> simp_all [Phase.installs, Phase.held, Phase.sure]
  · cases phase <;> simp_all [installs, held, risky]
  · simp [hwanting, installs, held] at hp

/-- An install is refused at once. -/
theorem Kept.refuse {given : List (ℕ × ℕ)} {answers : List InstallAnswer} :
    Kept { w with given := given, answers := answers } := by
  refine ⟨h.refusals, h.wanting, fun id kind hsure ↦ ?_, fun kind hkind ↦ ?_⟩
  · exact { h.sure id kind hsure with }
  · exact { h.kept kind hkind with }

theorem Kept.enable (hopened : w.Open kind) :
    Kept (w.withPhase id (.wanting kind (decide (∀ refusal ∈ w.refusals, refusal.2 ≠ kind)))) := by
  refine h.move (fun _ h ↦ h) (fun _ ↦ rfl) (fun _ ↦ rfl) (fun _ hrisky ↦ by cases hrisky)
    (fun j hj ↦ ?_) rfl rfl rfl rfl
  obtain ⟨rfl, hclean⟩ := wanting.inj hj
  exact ⟨hopened, of_decide_eq_true hclean⟩

/-- The port refused an enable. -/
theorem Kept.failed {old clean overtaken : Bool} (hp : w.phases id = .enabling kind old clean overtaken) :
    Kept (w.withPhase id (if old then .idle else .retracting kind overtaken)) := by
  cases old with
  | true => exact h.aside (fun _ h ↦ h) (.inl rfl) rfl rfl rfl rfl
  | false =>
    refine h.move (fun _ h ↦ h) (fun _ ↦ rfl) (fun _ ↦ rfl) (fun j hrisky ↦ ?_)
      (fun _ hwanting ↦ by cases hwanting) rfl rfl rfl rfl
    rw [hp]
    simpa [risky] using hrisky

theorem Kept.succeeded {old clean overtaken : Bool}
    (hp : w.phases id = .enabling kind old clean overtaken) :
    Kept { w.withPhase id .idle with kept := update w.kept kind (w.kept kind || clean) } := by
  refine h.step id (fun _ ↦ True) (fun _ ↦ True) (fun _ h ↦ h) (fun _ halive ↦ halive)
    (fun j hne ↦ ?_) (fun _ _ hbit ↦ hbit)
    (fun _ hmem _ ↦ hmem) (fun _ hmem _ ↦ hmem) (by simp [disables]) (by simp) (by simp [risky])
    (by simp [Phase.sure]) fun x hx ↦ ?_
  · rw [phases_withPhase_of_ne _ _ _ hne]
    exact .refl fun _ _ ↦ trivial
  · by_cases hkept : w.kept x = true
    · exact .inl ⟨hkept, trivial⟩
    · obtain ⟨rfl, hclean⟩ : x = kind ∧ clean = true := by grind
      have hsure := h.sure id x (by simp [hp, Phase.sure, hclean])
      refine .inr ⟨hsure.opened, hsure.bit, hsure.undisturbed, fun j _ ↦ ?_⟩
      by_cases hne : j = id
      · simp [hne, risky]
      · rw [phases_withPhase_of_ne _ _ _ hne]
        exact hsure.safe j fun hid ↦ hne (Option.some.inj hid).symm

/-- An enable sets the bit. Whoever relies on the bit found it set, so this enable will not
take it back. -/
theorem Kept.setBit {clean : Bool} (hp : w.phases id = .wanting kind clean) : Kept { w with
      enabled := update w.enabled kind true
      phases :=
        update (fun j ↦ (w.phases j).overtake kind) id (.enabling kind (w.enabled kind) clean false) } := by
  refine h.step id (fun _ ↦ True) (fun _ ↦ True) (fun _ h ↦ h) (fun _ halive ↦ halive)
    (fun j hne ↦ ?_) (fun x _ hbit ↦ ?_)
    (fun _ hmem _ ↦ hmem) (fun _ hmem _ ↦ hmem) (by simp [Phase.disables]) (by simp)
      (fun x hrisky ↦ .inr ?_)
    (fun x hsure ↦ ?_) fun _ hx ↦ .inl ⟨hx, trivial⟩
  · simp only [update_of_ne hne]
    exact recedes_overtake
  · by_cases heq : x = kind <;> simp [heq, hbit]
  · simp only [update_self, Phase.risky, Bool.and_eq_true, decide_eq_true_eq, Bool.not_eq_true'] at hrisky
    exact hrisky.1.1 ▸ hrisky.1.2
  · simp only [update_self, Phase.sure, Bool.and_eq_true, decide_eq_true_eq] at hsure
    obtain ⟨rfl, rfl⟩ := hsure
    refine ⟨(h.wanting id kind hp).1, update_self .., (h.wanting id kind hp).2, fun j hne ↦ ?_⟩
    simp only [update_of_ne fun heq ↦ hne (congrArg some heq.symm), risky_overtake_self]

/-- A call clears the bit of a kind nobody else relies on. -/
theorem Kept.clear (hfree : ∀ except, except ≠ some id → ¬Held w kind except)
    (hsure : ∀ x, phase.sure x = false) (hrisky : ∀ x, phase.risky x = false)
    (hwanting : ∀ x, phase ≠ .wanting x true)
    (hdisables : ∀ x, phase.disables x = true → (id, x) ∈ w.refusals) :
    Kept { w.withPhase id phase with enabled := update w.enabled kind false } := by
  refine h.step id (· ≠ kind) (fun _ ↦ True) (fun _ h ↦ h) (fun _ _ ↦ trivial) (fun j hne ↦ ?_)
    (fun _ hne hbit ↦ (update_of_ne hne ..).trans hbit) (fun _ hmem _ ↦ hmem) (fun _ hmem _ ↦ hmem)
    (fun x hx ↦ hdisables x (by simpa using hx)) (by simp [hwanting]) (by simp [hrisky]) (by simp [hsure])
    fun x hx ↦ .inl ⟨hx, ?_⟩
  · rw [phases_withPhase_of_ne _ _ _ hne]
    exact .refl fun x hx heq ↦ hfree (some j) (by simpa using hne) (heq ▸ h.sure j x hx)
  · exact fun heq ↦ hfree none (by simp) (heq ▸ h.kept x hx)

theorem Kept.retract (hp : w.phases id = .retracting kind false) :
    Kept { w.withPhase id .idle with enabled := update w.enabled kind false } := by
  refine h.clear (fun except hexcept hheld ↦ ?_) (fun _ ↦ rfl) (fun _ ↦ rfl) (by simp) (by simp [disables])
  simpa [hp, risky] using hheld.safe id hexcept

theorem Kept.clearBit (hp : w.phases id = .refusing kind) :
    Kept { w.withPhase id (.disabling kind) with enabled := update w.enabled kind false } := by
  have hrefusal := h.refusals id kind (by simp [hp, disables])
  refine h.clear (fun _ _ hheld ↦ hheld.undisturbed _ hrefusal rfl) (fun _ ↦ rfl) (fun _ ↦ rfl)
    (by simp) fun x hx ↦ ?_
  obtain rfl : kind = x := by simpa [disables] using hx
  exact hrefusal

/-- A disable starts: nothing of its kind is kept any more. -/
theorem Kept.disable : Kept { w with
      phases := update (fun j ↦ (w.phases j).disturb kind) id (.refusing kind)
      refusals := (id, kind) :: w.refusals
      kept := update w.kept kind false } := by
  refine h.step id (· ≠ kind) (· ≠ kind) (fun _ h ↦ h) (fun _ halive ↦ halive) (fun j hne ↦ ?_)
    (fun _ _ hbit ↦ hbit)
    (fun refusal hmem hcalm ↦ ?_) (fun _ hmem _ ↦ List.mem_cons_of_mem _ hmem) (fun x hx ↦ ?_) (by simp)
    (by simp [Phase.risky]) (by simp [Phase.sure]) fun x hx ↦ .inl ?_
  · simp only [update_of_ne hne]
    exact recedes_disturb
  · exact (List.mem_cons.mp hmem).resolve_left fun heq ↦ hcalm (heq ▸ rfl)
  · obtain rfl : kind = x := by simpa [disables] using hx
    exact List.mem_cons_self
  · have hne : x ≠ kind := by
      rintro rfl
      simp at hx
    exact ⟨(update_of_ne hne ..).symm.trans hx, hne⟩

theorem Kept.disabled :
    Kept { w.withPhase id .idle with refusals := w.refusals.filter (· ≠ (id, kind)) } := by
  refine h.step id (fun _ ↦ True) (fun _ ↦ True) (fun _ h ↦ h) (fun _ halive ↦ halive)
    (fun j hne ↦ ?_) (fun _ _ hbit ↦ hbit)
    (fun _ hmem _ ↦ (List.mem_filter.mp hmem).1) (fun refusal hmem hne ↦ List.mem_filter.mpr ⟨hmem, ?_⟩)
    (by simp [Phase.disables]) (by simp) (by simp [Phase.risky]) (by simp [Phase.sure]) fun _ hx ↦
      .inl ⟨hx, trivial⟩
  · rw [phases_withPhase_of_ne _ _ _ hne]
    exact .refl fun _ _ ↦ trivial
  · exact decide_eq_true fun heq ↦ hne (congrArg Prod.fst heq)

theorem Kept.next {group : Group} {action : Action} (hpaired : Paired w)
    (hunovertaken : action.Unovertaken w) (hnext : next group action w = some w') : Kept w' := by
  cases action with
  | install id handler data =>
    obtain ⟨_, hnext⟩ := Option.ite_none_left_eq_some.mp hnext
    split_ifs at hnext with _ hempty <;> cases hnext
    · exact h.refuse
    · exact h.aside (fun _ hopened ↦ by cases hempty.symm.trans hopened.1) (.inr (.inl rfl)) rfl rfl rfl rfl
    · exact h.refuse
  | storeData id | storeHandler id =>
    simp only [Handlers.next] at hnext
    split at hnext <;> cases hnext
    exact h.aside (fun _ h ↦ h) (.inr (.inl rfl)) rfl rfl rfl rfl
  | start id ok =>
    simp only [Handlers.next] at hnext
    split at hnext <;> cases hnext
    cases ok with
    | true | false => exact h.aside (fun _ h ↦ h) (.inr (.inl rfl)) rfl rfl rfl rfl
  | withdraw id =>
    simp only [Handlers.next] at hnext
    split at hnext <;> cases hnext
    exact h.aside (fun _ h ↦ h) (.inr (.inl rfl)) rfl rfl rfl rfl
  | reset id =>
    simp only [Handlers.next] at hnext
    split at hnext <;> cases hnext
    next hp =>
      have hclaimed := hpaired.claimed id (by rw [hp]; rfl)
      exact h.aside (fun _ hopened ↦ by cases hclaimed.symm.trans hopened.1) (.inl rfl) rfl rfl rfl rfl
  | complete id =>
    simp only [Handlers.next] at hnext
    split at hnext <;> cases hnext
    exact h.aside (fun _ hopened ↦ ⟨rfl, hopened.2⟩) (.inl rfl) rfl rfl rfl rfl
  | call id =>
    simp only [Handlers.next] at hnext
    split at hnext <;> cases hnext
    exact h.aside (fun _ h ↦ h) (.inl rfl) rfl rfl rfl rfl
  | deliver id kind =>
    obtain ⟨_, hnext⟩ := Option.ite_none_left_eq_some.mp hnext
    split_ifs at hnext <;> cases hnext
    · exact h
    · exact h.aside (fun _ h ↦ h) (.inr (.inr rfl)) rfl rfl rfl rfl
  | check id =>
    simp only [Handlers.next] at hnext
    split at hnext <;> cases hnext
    split
    · exact h.aside (fun _ h ↦ h) (.inr (.inr rfl)) rfl rfl rfl rfl
    · exact h.aside (fun _ h ↦ h) (.inl rfl) rfl rfl rfl rfl
  | enable id kind =>
    obtain ⟨_, hnext⟩ := Option.ite_none_left_eq_some.mp hnext
    split_ifs at hnext with hclosed <;> cases hnext
    · exact h
    · exact h.enable (by simpa [Open, and_comm] using hclosed)
  | setBit id =>
    simp only [Handlers.next] at hnext
    split at hnext
    · next kind clean hp =>
      cases hnext
      exact h.setBit hp
    · cases hnext
  | enabled id ok =>
    simp only [Handlers.next] at hnext
    split at hnext
    · next kind old clean overtaken hp =>
      cases ok with
      | true =>
        cases hnext
        exact h.succeeded hp
      | false =>
        cases hnext
        exact h.failed hp
    · cases hnext
  | retract id =>
    simp only [Handlers.next] at hnext
    split at hnext
    · next kind overtaken hp =>
      cases hnext
      cases overtaken with
      | true => exact absurd hp (hunovertaken kind)
      | false => exact h.retract hp
    · cases hnext
  | disable id kind =>
    obtain ⟨_, hnext⟩ := Option.ite_none_left_eq_some.mp hnext
    split_ifs at hnext <;> cases hnext
    · exact h
    · exact h.disable
  | clearBit id =>
    simp only [Handlers.next] at hnext
    split at hnext <;> cases hnext
    exact h.clearBit ‹_›
  | disabled id =>
    simp only [Handlers.next] at hnext
    split at hnext <;> cases hnext
    exact h.disabled

omit h

theorem kept_of_reachable {group : Group}
    (hreach : ((machine group).system Action.Unovertaken).Reachable w) : Kept w := by
  have hboth := @Machine.invariant _ _ _ _ (fun w ↦ Paired w ∧ Kept w) ⟨paired_initial, kept_initial⟩
    (fun _ _ _ hunovertaken h hnext ↦ ⟨h.1.next hnext, h.2.next h.1 hunovertaken hnext⟩) w hreach
  exact hboth.2

/-- Where no enable takes back a bit that another has set since: once an enable of a kind returned
OK that no disable of the kind ran beside, the bit is set until a disable of it starts, and
deliveries call the handler. -/
theorem enabled_of_unovertaken (hreach : ((machine .notifications).system Action.Unovertaken).Reachable w)
    (hkept : w.kept kind = true) : w.enabled kind = true ∧ w.handler ≠ 0 ∧
    (∀ id, w.phases id = .idle →
      next .notifications (.deliver id kind) w = some (w.withPhase id (.holding w.handler kind))) ∧
    ∀ id handler, w.phases id = .holding handler kind →
      next .notifications (.check id) w = some (w.withPhase id (.calling handler)) := by
  have hheld := (kept_of_reachable hreach).kept kind hkept
  have hhandler : w.handler ≠ 0 := (paired_of_reachable hreach).stays hheld.opened.1
  refine ⟨hheld.bit, hhandler, fun id hidle ↦ by simp [next, hidle, hhandler], fun id handler hp ↦ ?_⟩
  simp [next, hp, wanted, hheld.opened.2, hheld.bit]

/-- An install, then two enables of one kind one after the other; the second fails while a delivery
is on its way. -/
def twoEnables : List Action :=
  [.install 0 1 10, .storeData 0, .storeHandler 0, .start 0 true, .complete 0, .enable 0 1,
    .setBit 0, .enabled 0 true, .enable 1 1, .deliver 2 1, .setBit 1, .enabled 1 false]

theorem enabled_of_unovertaken_twoEnables :
    ∃ w, ((machine .notifications).system Action.Unovertaken).Reachable w ∧
    w.kept 1 = true ∧ w.enabled 1 = true ∧
    next .notifications (.check 2) w = some (w.withPhase 2 (.calling 1)) := by
  have hfree : ∀ action ∈ twoEnables, ∀ state, action.Unovertaken state := by
    simp [twoEnables, Action.Unovertaken]
  have hrun := Machine.Reachable.of_free (System.Reachable.of_start rfl) hfree
    (show (machine .notifications).run twoEnables initial = some _ from rfl)
  obtain ⟨hbit, _, _, hcheck⟩ := @enabled_of_unovertaken _ 1 hrun rfl
  exact ⟨_, hrun, rfl, hbit, hcheck 2 1 rfl⟩

/-- The first of two enables finds the bit clear and fails; the second returned OK meanwhile. -/
theorem disabled_rollback : ∃ w, (machine .notifications).run
      [.install 0 1 10, .storeData 0, .storeHandler 0, .start 0 true, .complete 0, .enable 0 1, .setBit 0,
        .enable 1 1, .setBit 1, .enabled 1 true, .enabled 0 false, .retract 0] initial = some w ∧
      w.kept 1 = true ∧ w.enabled 1 = false :=
  ⟨_, rfl, rfl, rfl⟩

end DotnetPal.Boundary.Handlers
