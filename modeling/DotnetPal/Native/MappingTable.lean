import DotnetPal.Native.FileMappings

/-!
# The table of file mappings and the provider

How often a range stands in the table and how often the provider has it mapped differ only by the
calls in progress: a mapping that is made and not yet recorded, and one that is undone and not yet
cleared. The table is searched by address alone, so the rest needs that the ranges at one address
have one length and that one `MUnmap` of an address runs at a time.
-/

open Std List Option

namespace DotnetPal.Native

open Programs OrderedMap

namespace FileMappings

/-! ## Tasks -/

/-- The slot a call works on. -/
def MappingTask.slot? : MappingTask → Option ℕ
  | .mapping slot .. | .recording slot .. | .unmapping slot .. | .clearing slot .. => some slot
  | .syncing .. => none

/-- The address a call unmaps. -/
def MappingTask.page? : MappingTask → Option ℕ
  | .unmapping _ addr _ | .clearing _ addr _ => some addr
  | _ => none

/-- A range that is mapped and not recorded. -/
def MappingTask.records (key : ℕ × ℕ) : MappingTask → ℕ
  | .recording _ length (some addr) => if (addr, length) = key then 1 else 0
  | _ => 0

/-- A range that is unmapped and not cleared. -/
def MappingTask.clears (key : ℕ × ℕ) : MappingTask → ℕ
  | .clearing _ addr length => if (addr, length) = key then 1 else 0
  | _ => 0

/-- What a call counts on in the table, and what an `MSync` found. -/
def MappingTask.Holds (slots : List Slot) : MappingTask → Prop
  | .mapping slot .. | .recording slot .. => ∃ length, slots[slot]? = some ⟨.table, length⟩
  | .unmapping slot addr length | .clearing slot addr length => slots[slot]? = some ⟨.page addr, length⟩
  | .syncing _ mapped length live => live = true → mapped = length

/-- No two calls in progress have one of these. -/
def Apart (key : MappingTask → Option ℕ) (tasks : ExtTreeMap ℕ MappingTask) : Prop :=
  ∀ (i j : ℕ) first second value, tasks[i]? = some first → tasks[j]? = some second → key first = some value →
    key second = some value → i = j

section Apart

variable {key : MappingTask → Option ℕ} {tasks : ExtTreeMap ℕ MappingTask} {id : ℕ}
  {task before : MappingTask}

theorem Apart.insert (h : Apart key tasks)
    (hnew : ∀ v, key task = some v → ∀ other x, tasks[other]? = some x → key x = some v → other = id) :
    Apart key (tasks.insert id task) := by
  intro i j a b v hi hj ha hb
  rcases insert_cases hi with ⟨rfl, rfl⟩ | ⟨_, hi⟩ <;>
    rcases insert_cases hj with ⟨rfl, rfl⟩ | ⟨_, hj⟩
  · rfl
  · exact (hnew v ha j b hj hb).symm
  · exact hnew v hb i a hi ha
  · exact h i j a b v hi hj ha hb

theorem Apart.erase (h : Apart key tasks) (id : ℕ) : Apart key (tasks.erase id) := by
  intro i j a b v hi hj
  exact h i j a b v (get_of_erase hi).2 (get_of_erase hj).2

end Apart

variable {slot : ℕ} {slots : List Slot} {task : MappingTask}

theorem MappingTask.Holds.set (h : task.Holds slots) (e : Slot)
    (hslot : task.slot? ≠ some slot) : task.Holds (slots.set slot e) := by
  have hj : ∀ j, task.slot? = some j → (slots.set slot e)[j]? = slots[j]? := by
    intro j heq
    refine getElem?_set_ne fun hsame ↦ hslot ?_
    rw [heq, hsame]
  cases task with
  | mapping j | recording j =>
    obtain ⟨n, hlen⟩ := h
    exact ⟨n, (hj j rfl).trans hlen⟩
  | unmapping j | clearing j => exact (hj j rfl).trans h
  | syncing => exact h

variable {before : Slot}

theorem count_set (hold : slots[slot]? = some before) (after e : Slot) :
    (slots.set slot after).count e + (if before = e then 1 else 0) = slots.count e + if after =
      e then 1 else 0 := by
  induction slots generalizing slot with
  | nil => simp at hold
  | cons a rest ih =>
    cases slot with
    | zero =>
      simp only [getElem?_cons_zero, some.injEq] at hold
      subst hold
      simp only [set_cons_zero, count_cons, beq_iff_eq]
      omega
    | succ slot =>
      have hrest := ih (by simpa using hold)
      simp only [set_cons_succ, count_cons]
      omega

theorem modify_eq_set (hold : slots[slot]? = some before) (change : Slot → Slot) :
    slots.modify slot change = slots.set slot (change before) := by
  refine ext_getElem? fun index ↦ ?_
  rw [getElem?_modify, getElem?_set]
  by_cases hsame : slot = index
  · subst hsame
    have hlt := (List.getElem?_eq_some_iff.mp hold).1
    rw [if_pos rfl, if_pos hlt, hold]
    simp
  · simp [hsame]

/-! ## The calls in progress -/

/-- Each call in progress has what it counts on, none gets in another's way, and slots are
reserved by one. -/
structure Kept (slots : List Slot) (tasks : ExtTreeMap ℕ MappingTask) : Prop where
  holds : ∀ (id : ℕ) (task : MappingTask), tasks[id]? = some task → task.Holds slots
  bySlot : Apart MappingTask.slot? tasks
  byPage : Apart MappingTask.page? tasks
  tables : ∀ slot length, slots[slot]? = some (⟨.table, length⟩ : Slot) →
    ∃ (id : ℕ) (task : MappingTask), tasks[id]? = some task ∧ task.slot? = some slot

namespace Kept

variable {slots after : List Slot} {tasks : ExtTreeMap ℕ MappingTask} {id slot : ℕ}
  {task before : MappingTask}

variable (h : Kept slots tasks)
include h

/-- What a call works on is reserved or a file's. -/
theorem address_of_slot (htask : tasks[id]? = some task) (hslot : task.slot? = some slot) :
    ∃ e, slots[slot]? = some e ∧ (e.address = .table ∧ task.page? = none ∨
      ∃ addr, e.address = .page addr ∧ task.page? = some addr) := by
  have hholds := h.holds id task htask
  cases task with
  | mapping j | recording j =>
    cases hslot
    obtain ⟨n, hlen⟩ := hholds
    exact ⟨_, hlen, .inl ⟨rfl, rfl⟩⟩
  | unmapping j addr n | clearing j addr n =>
    cases hslot
    exact ⟨_, hholds, .inr ⟨addr, rfl, rfl⟩⟩
  | syncing => cases hslot

/-- A call begins or goes on. -/
theorem put (hbefore : ∀ before, tasks[id]? = some before → task.slot? = before.slot?)
    (hslot : ∀ v, task.slot? = some v → ∀ j x, tasks[j]? = some x → x.slot? = some v → j = id)
    (hpage : ∀ v, task.page? = some v → ∀ j x, tasks[j]? = some x → x.page? = some v → j = id)
    (hholds : task.Holds after) (hothers : ∀ (j : ℕ) x, tasks[j]? = some x → id ≠ j → x.Holds after)
    (htables : ∀ slot n, after[slot]? = some (⟨.table, n⟩ : Slot) →
      task.slot? = some slot ∨ slots[slot]? = some ⟨.table, n⟩) : Kept after (tasks.insert id task) := by
  have hself : (tasks.insert id task)[id]? = some task := by rw [get_insert, if_pos rfl]
  refine ⟨fun j x hx ↦ ?_, h.bySlot.insert hslot, h.byPage.insert hpage, fun slot n hget ↦ ?_⟩
  · rcases insert_cases hx with ⟨rfl, rfl⟩ | ⟨hne, hx⟩
    · exact hholds
    · exact hothers j x hx hne
  · rcases htables slot n hget with hmine | hold
    · exact ⟨id, task, hself, hmine⟩
    obtain ⟨key, x, hx, howns⟩ := h.tables slot n hold
    by_cases hkey : id = key
    · subst hkey
      exact ⟨id, task, hself, (hbefore x hx).trans howns⟩
    · exact ⟨key, x, by rw [get_insert, if_neg hkey, hx], howns⟩

/-- A call begins that takes a free slot. -/
theorem reserve (hid : tasks[id]? = none) {e : Slot} (he : slots[slot]? = some e)
    (hnull : e.address = .null) (hslot : task.slot? = some slot) (hpage : task.page? = none)
    (hholds : task.Holds (slots.set slot ⟨.table, e.length⟩)) :
    Kept (slots.set slot ⟨.table, e.length⟩) (tasks.insert id task) := by
  have hfree : ∀ (j : ℕ) (x : MappingTask), tasks[j]? = some x → x.slot? ≠ some slot := by
    intro j x hx heq
    obtain ⟨there, hthere, hcases⟩ := h.address_of_slot hx heq
    obtain rfl : e = there := some.inj (he.symm.trans hthere)
    rcases hcases with ⟨htable, _⟩ | ⟨addr, haddr, _⟩
    · cases hnull.symm.trans htable
    · cases hnull.symm.trans haddr
  refine h.put (by simp [hid]) (fun v hv j x hx hj ↦ ?_) (by simp [hpage]) hholds
    (fun j x hx _ ↦ (h.holds j x hx).set _ (hfree j x hx)) fun j n hj ↦ ?_
  · exact absurd (hj.trans (hv.symm.trans hslot)) (hfree j x hx)
  · by_cases hsame : slot = j
    · exact .inl (hsame ▸ hslot)
    · exact .inr (by rwa [getElem?_set_ne hsame] at hj)

/-- A call begins that changes no slot. -/
theorem start (hid : tasks[id]? = none) (hholds : task.Holds slots)
    (hslot : ∀ v, task.slot? = some v → ∀ (j : ℕ) x, tasks[j]? = some x → x.slot? ≠ some v)
    (hpage : ∀ v, task.page? = some v → ∀ (j : ℕ) x, tasks[j]? = some x → x.page? ≠ some v) :
    Kept slots (tasks.insert id task) :=
  h.put (by simp [hid]) (fun v hv j x hx hj ↦ absurd hj (hslot v hv j x hx))
    (fun v hv j x hx hj ↦ absurd hj (hpage v hv j x hx)) hholds
    (fun j x hx _ ↦ h.holds j x hx) fun _ _ hold ↦ .inr hold

/-- A call goes on with what it has. -/
theorem advance (hbefore : tasks[id]? = some before) (hslot : task.slot? = before.slot?)
    (hpage : task.page? = before.page?) (hholds : task.Holds slots) :
    Kept slots (tasks.insert id task) := by
  refine h.put (fun x hx ↦ ?_) (fun v hv j x hx hj ↦ ?_)
    (fun v hv j x hx hj ↦ ?_) hholds (fun j x hx _ ↦ h.holds j x hx)
    fun _ _ hold ↦ .inr hold
  · rw [hslot, some.inj (hbefore.symm.trans hx)]
  · exact h.bySlot j id x before v hx hbefore hj (hslot.symm.trans hv)
  · exact h.byPage j id x before v hx hbefore hj (hpage.symm.trans hv)

/-- A call ends and leaves its slot, if it has one, to others. -/
theorem finish (hbefore : tasks[id]? = some before)
    (hothers : ∀ (j : ℕ) x, tasks[j]? = some x → id ≠ j → x.Holds after)
    (htables : ∀ slot n, after[slot]? = some (⟨.table, n⟩ : Slot) →
      before.slot? ≠ some slot ∧ slots[slot]? = some ⟨.table, n⟩) : Kept after (tasks.erase id) := by
  refine ⟨fun j x hx ↦ ?_, h.bySlot.erase id, h.byPage.erase id, fun slot n hget ↦ ?_⟩
  · obtain ⟨hne, hx⟩ := get_of_erase hx
    exact hothers j x hx hne
  · obtain ⟨hapart, hold⟩ := htables slot n hget
    obtain ⟨key, x, hx, howns⟩ := h.tables slot n hold
    have hne : id ≠ key := by
      rintro rfl
      exact hapart (some.inj (hbefore.symm.trans hx) ▸ howns)
    exact ⟨key, x, by rw [get_erase, if_neg hne, hx], howns⟩

end Kept

/-! ## The invariant -/

/-- How often a range is mapped and not recorded, and unmapped and not cleared. -/
def recorded (key : ℕ × ℕ) (tasks : ExtTreeMap ℕ MappingTask) : ℕ :=
  total (fun _ ↦ MappingTask.records key) tasks

def cleared (key : ℕ × ℕ) (tasks : ExtTreeMap ℕ MappingTask) : ℕ :=
  total (fun _ ↦ MappingTask.clears key) tasks

structure Sound (w : FileMappings) : Prop where
  steady : w.fs.Steady
  uniform : w.fs.Uniform
  kept : Kept w.slots w.tasks
  counts : ∀ addr length, w.slots.count ⟨.page addr, length⟩ + recorded (addr, length) w.tasks =
    w.fs.live (addr, length) + cleared (addr, length) w.tasks
  logs : ∀ addr length, w.returned.count (addr, length) =
    w.unmapped.count (addr, length) + w.slots.count ⟨.page addr, length⟩
  quiet : w.failed = [] ∧ w.unsynced = []

theorem sound_initial : Sound initial := by
  have hnone : ∀ (id : ℕ) (task : MappingTask), (∅ : ExtTreeMap ℕ MappingTask)[id]? ≠ some task := by simp
  have hslots : ∀ addr n, initial.slots.count ⟨.page addr, n⟩ = 0 := by
    intro addr n
    refine count_eq_zero_of_not_mem fun hmem ↦ ?_
    cases eq_of_mem_replicate hmem
  have hlive : ∀ key, initial.fs.live key = 0 := by
    refine fun key ↦ Memfs.State.live_of_none ?_
    rw [show initial.fs.mappings = ∅ from rfl]
    simp
  refine ⟨Memfs.State.steady_first, fun addr a b ha ↦ ?_, ⟨fun id task htask ↦ absurd htask (hnone id task),
    fun i j a b v hi ↦ absurd hi (hnone i a), fun i j a b v hi ↦ absurd hi (hnone i a),
    fun slot n hslot ↦ ?_⟩, fun addr n ↦ ?_, fun addr n ↦ ?_, rfl, rfl⟩
  · rw [hlive] at ha
    exact absurd ha (lt_irrefl 0)
  · cases eq_of_mem_replicate (mem_of_getElem? hslot)
  · rw [hslots, hlive]
    simp [initial, recorded, cleared]
  · rw [hslots]
    rfl

/-! ## The provider's answers -/

variable {n : ℕ} {answer : Except Error Memfs.Reply}

section Provider

variable {env : Memfs.Env} {fs : Memfs.State} {call : Memfs.Call}

/-- The provider answers each call, and a refusal changes no more than the locks. -/
theorem provide_cases (h : fs.Steady) (honest : env.Honest fs) (htrusted : call.Trusted fs) :
    (∃ reply w', provide env call fs = some (.ok reply, w') ∧ Memfs.Deed env fs call reply w') ∨
      ∃ error w', provide env call fs = some (.error error, w') ∧
        (w' = fs ∨ ∃ file mode wait, call = .lock file mode wait) := by
  rw [provide, h.acquire_eq]
  rcases Memfs.exec_cases h.ready honest htrusted with ⟨reply, w', hrun, hdeed⟩ | ⟨error, w', hrun, hfinal⟩
  · exact .inl ⟨reply, w', by rw [hrun], hdeed⟩
  · refine .inr ⟨error, w', by rw [hrun], ?_⟩
    rcases hfinal with hsame | ⟨file, mode, wait, hlock, _⟩
    · exact .inl hsame
    · exact .inr ⟨file, mode, wait, hlock⟩

theorem provide_after {w' : Memfs.State} (h : fs.Steady) (honest : env.Honest fs)
    (htrusted : call.Trusted fs) (hprovide : provide env call fs = some (answer, w')) :
    w' = after (Memfs.exec env call) fs := by
  rw [provide, h.acquire_eq] at hprovide
  rcases Memfs.exec_cases h.ready honest htrusted with ⟨reply, next, hrun, _⟩ | ⟨error, next, hrun, _⟩
  · rw [hrun] at hprovide
    cases hprovide
    exact (after_of_ok hrun).symm
  · rw [hrun] at hprovide
    cases hprovide
    exact (after_of_error hrun).symm

/-- An unmap of a live range succeeds and takes one mapping of it. -/
theorem provide_unmap (h : fs.Steady) {addr : ℕ} (hlive : 0 < fs.live (addr, n)) :
    ∃ w', provide env (.unmap addr n) fs = some (.ok .done, w') ∧
      ∀ j, w'.live j + (if (addr, n) = j then 1 else 0) = fs.live j := by
  obtain ⟨w', hrun, hfinal⟩ : ∃ w', Memfs.exec env (.unmap addr n) fs = .ok .done w' ∧
    ∀ j, w'.live j + (if (addr, n) = j then 1 else 0) = fs.live j := h.exec_unmap hlive
  refine ⟨w', ?_, hfinal⟩
  rw [provide, h.acquire_eq, hrun]

theorem provide_sync (h : fs.Steady) {addr : ℕ} (hlive : 0 < fs.live (addr, n)) :
    provide env (.sync addr n) fs = some (.ok .done, fs) := by
  rw [provide, h.acquire_eq, h.exec_sync hlive]

theorem trusted_unmap (addr n : ℕ) : (Memfs.Call.unmap addr n).Trusted fs :=
  ⟨fun _ hnone ↦ (nomatch hnone), fun _ _ _ _ hstore ↦ (nomatch hstore)⟩

theorem trusted_sync (addr n : ℕ) : (Memfs.Call.sync addr n).Trusted fs :=
  ⟨fun _ hnone ↦ (nomatch hnone), fun _ _ _ _ hstore ↦ (nomatch hstore)⟩

end Provider

/-! ## Looking an address up -/

variable {addr : Pointer}

theorem get_of_mappingSlot (h : mappingSlot slots addr = some slot) :
    ∃ n, slots[slot]? = some ⟨addr, n⟩ := by
  obtain ⟨hlt, haddr, _⟩ := findIdx?_eq_some_iff_getElem.mp h
  have haddr : slots[slot].address = addr := of_decide_eq_true haddr
  exact ⟨slots[slot].length, by rw [getElem?_eq_getElem hlt, ← haddr]⟩

theorem exists_mappingSlot (h : (⟨addr, n⟩ : Slot) ∈ slots) :
    ∃ slot, mappingSlot slots addr = some slot := by
  cases hslot : mappingSlot slots addr with
  | some slot => exact ⟨slot, rfl⟩
  | none =>
    have hnone := findIdx?_eq_none_iff.mp hslot _ h
    simp at hnone

/-! ## Steps -/

variable {fs : Memfs.State}

namespace Sound

variable {w : FileMappings} {id : ℕ} {env : Memfs.Env}

variable (h : Sound w)
include h

/-- Only the calls in progress change. -/
theorem tasks {tasks : ExtTreeMap ℕ MappingTask} (hkept : Kept w.slots tasks)
    (hrecorded : ∀ key, recorded key tasks = recorded key w.tasks)
    (hcleared : ∀ key, cleared key tasks = cleared key w.tasks) :
    Sound { w with tasks := tasks } :=
  { h with
    kept := hkept
    counts := fun addr n ↦ by
      rw [hrecorded, hcleared]
      exact h.counts addr n }

/-- The provider does something else than mapping. -/
theorem provider (hsteady : fs.Steady) (hlive : fs.live = w.fs.live) : Sound { w with fs := fs } :=
  { h with
    steady := hsteady
    uniform := fun addr a b ↦ by
      rw [hlive]
      exact h.uniform addr a b
    counts := fun addr n ↦ by
      rw [hlive]
      exact h.counts addr n }

omit h in
theorem cleared_eq_zero {tasks : ExtTreeMap ℕ MappingTask} {addr : ℕ}
    (h : ∀ (id slot : ℕ), tasks[id]? ≠ some (MappingTask.clearing slot addr n)) :
    cleared (addr, n) tasks = 0 := by
  refine (total_eq_zero_iff _ _).mpr fun id task htask ↦ ?_
  cases task with
  | clearing slot p size =>
    refine if_neg fun heq ↦ ?_
    obtain ⟨rfl, rfl⟩ := Prod.mk.inj heq
    exact h id slot htask
  | _ => rfl

/-- What the table has and no `MUnmap` is done with, the provider has. -/
theorem live_of_slot {addr : ℕ} (hslot : w.slots[slot]? = some ⟨.page addr, n⟩)
    (hclear : ∀ (id j : ℕ), w.tasks[id]? ≠ some (.clearing j addr n)) : 0 < w.fs.live (addr, n) := by
  have hn : 0 < w.slots.count ⟨.page addr, n⟩ := count_pos_iff.mpr (mem_of_getElem? hslot)
  have hcounts := h.counts addr n
  rw [cleared_eq_zero hclear] at hcounts
  omega

/-- The slot that a settled address has is of the length that is mapped. -/
theorem length_of_live {addr mapped : ℕ} (hsettled : w.Settled (.page addr))
    (hslot : w.slots[slot]? = some ⟨.page addr, mapped⟩) (hlive : 0 < w.fs.live (addr, n)) : mapped = n :=
  h.uniform addr mapped n (h.live_of_slot hslot fun id j ↦ (hsettled id j mapped).2) hlive

/-- What was returned more often than unmapped is found. -/
theorem found {addr : ℕ} (hsettled : w.Settled (.page addr))
    (hn : w.unmapped.count (addr, n) < w.returned.count (addr, n)) :
    ∃ slot, mappingSlot w.slots (.page addr) = some slot ∧ w.slots[slot]? = some ⟨.page addr, n⟩ ∧
      n ≠ 0 := by
  have hlogs := h.logs addr n
  have hmem : (⟨.page addr, n⟩ : Slot) ∈ w.slots := count_pos_iff.mp (by omega)
  obtain ⟨own, hown⟩ := getElem?_of_mem hmem
  have hlive := h.live_of_slot hown fun id j ↦ (hsettled id j n).2
  obtain ⟨slot, hslot⟩ := exists_mappingSlot hmem
  obtain ⟨mapped, hmapped⟩ := get_of_mappingSlot hslot
  obtain rfl := h.length_of_live hsettled hmapped hlive
  exact ⟨slot, hslot, hmapped, (h.steady.length_pos hlive).ne'⟩

omit h in
/-- A slot that no mapping had is reserved or freed. -/
theorem count_table {after : Slot} (hold : slots[slot]? = some before)
    (hnone : ∀ addr, before.address ≠ .page addr) (hfree : ∀ addr, after.address ≠ .page addr)
    (addr n : ℕ) :
    (slots.set slot after).count ⟨.page addr, n⟩ = slots.count ⟨.page addr, n⟩ := by
  have hn := count_set hold after ⟨.page addr, n⟩
  rwa [if_neg (by rintro rfl; exact hnone addr rfl), if_neg (by rintro rfl; exact hfree addr rfl),
    Nat.add_zero, Nat.add_zero] at hn

theorem mmap (hid : w.tasks[id]? = none) (request : Request) (pin : Option ℕ) :
    Sound (w.mmap id request pin) := by
  unfold FileMappings.mmap
  split
  · next slot _ hslot =>
    split_ifs with hrefused
    · exact h
    obtain ⟨n, hlen⟩ := get_of_mappingSlot hslot
    rw [modify_eq_set hlen]
    have hlt := (List.getElem?_eq_some_iff.mp hlen).1
    have hn : ∀ p size, (w.slots.set slot ⟨.table, n⟩).count ⟨.page p, size⟩ =
        w.slots.count ⟨.page p, size⟩ := count_table hlen (by simp) (by simp)
    refine { h with kept := ?_, counts := fun addr size ↦ ?_, logs := fun addr size ↦ ?_ }
    · exact h.kept.reserve hid hlen rfl rfl rfl ⟨n, getElem?_set_self hlt⟩
    · simp only [recorded, cleared, total_insert_new _ _ _ hid, hn]
      exact h.counts addr size
    · rw [hn]
      exact h.logs addr size
  · exact h

theorem map {file offset : ℕ} {access : UInt32} {shared : Bool}
    (htask : w.tasks[id]? = some (.mapping slot file offset n access shared)) (honest : env.Honest w.fs)
    (htrusts : w.fs.Trusts file) (hfitting : shared = true → w.fs.Fitting file offset n)
    (hprovide : provide env (.map file offset n access shared) w.fs = some (answer, fs)) :
    Sound { w with fs := fs, tasks := w.tasks.insert id (.recording slot n (mappedAddress answer)) } := by
  have htrusted : (Memfs.Call.map file offset n access shared).Trusted w.fs :=
    ⟨fun addr haddr ↦ by cases haddr; exact htrusts, fun _ _ _ _ hstore ↦ (nomatch hstore)⟩
  have hholds : ∃ size, w.slots[slot]? = some ⟨.table, size⟩ := h.kept.holds id _ htask
  have hkept : Kept w.slots (w.tasks.insert id (.recording slot n (mappedAddress answer))) :=
    h.kept.advance htask rfl rfl hholds
  have hcleared : ∀ key, cleared key (w.tasks.insert id (.recording slot n (mappedAddress answer))) =
      cleared key w.tasks := fun key ↦ total_insert_same _ _ htask rfl
  have hrecorded : ∀ key, recorded key (w.tasks.insert id (.recording slot n (mappedAddress answer))) =
      recorded key w.tasks + (MappingTask.recording slot n (mappedAddress answer)).records key := by
    intro key
    rw [← Nat.add_zero (recorded key (w.tasks.insert _ _))]
    exact total_insert_add _ _ _ htask
  rcases provide_cases h.steady honest htrusted with ⟨reply, w', hanswer, hdeed⟩
    | ⟨error, w', hanswer, hfinal⟩
  · cases hanswer.symm.trans hprovide
    obtain ⟨addr, rfl, hlive, _⟩ := h.steady.deed_map honest hdeed
    refine { h with
      steady := h.steady.deed honest hdeed
      uniform := h.steady.uniform_map honest h.uniform hfitting hdeed
      kept := hkept
      counts := fun p size ↦ ?_ }
    have hcounts := h.counts p size
    rw [hrecorded, hcleared, hlive]
    change w.slots.count _ + (_ + if (addr, n) = (p, size) then 1 else 0) = _
    omega
  · cases hanswer.symm.trans hprovide
    obtain rfl : fs = w.fs := by
      rcases hfinal with hsame | ⟨_, _, _, hlock⟩
      · exact hsame
      · cases hlock
    exact h.tasks hkept (fun key ↦ hrecorded key) hcleared

/-- A call ends, and its slot holds something else. -/
theorem finish (htask : w.tasks[id]? = some task)
    (howns : task.slot? = some slot) (hslot : w.slots[slot]? = some before) (after : Slot)
    (hnew : after.address ≠ .table) (returned unmapped : List (ℕ × ℕ))
    (hcounts : ∀ p size, (if after = ⟨.page p, size⟩ then 1 else 0) + task.clears (p, size) =
      (if before = ⟨.page p, size⟩ then 1 else 0) + task.records (p, size))
    (hlogs : ∀ p size, returned.count (p, size) + w.unmapped.count (p, size) +
        (if before = ⟨.page p, size⟩ then 1 else 0) =
      unmapped.count (p, size) + w.returned.count (p, size) + if after = ⟨.page p, size⟩ then 1 else 0) :
    Sound { w with
      slots := w.slots.set slot after
      tasks := w.tasks.erase id
      returned := returned
      unmapped := unmapped } := by
  have hset (p size : ℕ) := count_set hslot after ⟨.page p, size⟩
  refine { h with
    kept := h.kept.finish htask (fun j x hx hne ↦ ?_) fun j n hj ↦ ?_
    counts := fun p size ↦ ?_
    logs := fun p size ↦ ?_ }
  · exact (h.kept.holds j x hx).set _ fun heq ↦ hne (h.kept.bySlot id j task x slot htask hx howns heq)
  · rw [getElem?_set] at hj
    split_ifs at hj with hsame
    · exact absurd (congrArg Slot.address (some.inj hj)) hnew
    · exact ⟨fun heq ↦ hsame (some.inj (howns.symm.trans heq)), hj⟩
  · have hrecorded : recorded (p, size) (w.tasks.erase id) + task.records (p, size) =
        recorded (p, size) w.tasks := total_erase_add _ _ htask
    have hcleared : cleared (p, size) (w.tasks.erase id) + task.clears (p, size) =
        cleared (p, size) w.tasks := total_erase_add _ _ htask
    have hbalance := h.counts p size
    have hsame := hset p size
    have hmoves := hcounts p size
    simp only
    omega
  · have hbalance := h.logs p size
    have hsame := hset p size
    have hmoves := hlogs p size
    simp only
    omega

theorem record {addr : ℕ} (htask : w.tasks[id]? = some (.recording slot n (some addr))) : Sound { w with
      slots := w.slots.set slot ⟨.page addr, n⟩
      tasks := w.tasks.erase id
      returned := (addr, n) :: w.returned } := by
  obtain ⟨size, hslot⟩ := h.kept.holds id _ htask
  refine h.finish htask rfl hslot ⟨.page addr, n⟩ (by simp) _ w.unmapped (fun p size ↦ ?_) fun p size ↦ ?_
  · simp [MappingTask.records, MappingTask.clears]
  · simp [count_cons]
    omega

theorem giveUp (htask : w.tasks[id]? = some (.recording slot n none)) :
    Sound { w with slots := w.slots.set slot ⟨.null, n⟩, tasks := w.tasks.erase id } := by
  obtain ⟨size, hslot⟩ := h.kept.holds id _ htask
  refine h.finish htask rfl hslot ⟨.null, n⟩ (by simp) w.returned w.unmapped
    (fun p size ↦ ?_) fun p size ↦ ?_
  · simp [MappingTask.records, MappingTask.clears]
  · simp [Nat.add_comm]

/-- What no `MUnmap` is running for is nobody's. -/
theorem free_of_settled {addr : ℕ} (hsettled : w.Settled (.page addr))
    (hslot : w.slots[slot]? = some ⟨.page addr, n⟩) {j : ℕ}
    (htask : w.tasks[j]? = some task) : task.page? ≠ some addr ∧ task.slot? ≠ some slot := by
  have hpage : task.page? ≠ some addr := by
    intro heq
    cases task with
    | unmapping p page size =>
      cases heq
      exact (hsettled j p size).1 htask
    | clearing p page size =>
      cases heq
      exact (hsettled j p size).2 htask
    | _ => cases heq
  refine ⟨hpage, fun heq ↦ ?_⟩
  obtain ⟨e, he, hcases⟩ := h.kept.address_of_slot htask heq
  cases hslot.symm.trans he
  rcases hcases with ⟨htable, _⟩ | ⟨p, hp, hsome⟩
  · cases htable
  · cases hp
    exact hpage hsome

omit h in
theorem refuse_eq
    (hlogs : ∀ p, addr = .page p → ¬w.unmapped.count (p, n) < w.returned.count (p, n)) :
    w.refuse addr n = w := by
  cases addr with
  | page p => exact if_neg (hlogs p rfl)
  | _ => rfl

theorem munmap (hid : w.tasks[id]? = none) (hsettled : w.Settled addr) : Sound (w.munmap id addr n) := by
  unfold FileMappings.munmap
  split
  · next p slot hslot =>
    split_ifs with hlen
    · obtain ⟨mapped, hmapped⟩ := get_of_mappingSlot hslot
      obtain rfl : mapped = n := by simpa [hmapped] using hlen.2
      refine h.tasks (h.kept.start hid hmapped ?_ ?_) (fun key ↦ ?_) (fun key ↦ ?_)
      · rintro v hv j x hx
        cases hv
        exact (h.free_of_settled hsettled hmapped hx).2
      · rintro v hv j x hx
        cases hv
        exact (h.free_of_settled hsettled hmapped hx).1
      · exact total_insert_new _ _ _ hid
      · exact total_insert_new _ _ _ hid
    · rw [refuse_eq]
      · exact h
      · rintro j hj hn
        cases hj
        obtain ⟨own, hown, he, hpos⟩ := h.found hsettled hn
        cases hslot.symm.trans hown
        exact hlen ⟨hpos, by simp [he]⟩
  · next hnone =>
    rw [refuse_eq]
    · exact h
    · rintro j rfl hn
      obtain ⟨own, hown, _, _⟩ := h.found hsettled hn
      exact hnone j own rfl hown

/-- `MUnmap` that found its range undoes one mapping of it. -/
theorem unmaps (env : Memfs.Env) {addr : ℕ} (htask : w.tasks[id]? = some (.unmapping slot addr n)) :
    ∃ fs, provide env (.unmap addr n) w.fs = some (.ok .done, fs) ∧
      ∀ j, fs.live j + (if (addr, n) = j then 1 else 0) = w.fs.live j := by
  refine provide_unmap h.steady (h.live_of_slot (h.kept.holds id _ htask) fun j p hj ↦ ?_)
  obtain rfl := h.kept.byPage id j _ _ addr htask hj rfl rfl
  cases htask.symm.trans hj

theorem unmap {addr : ℕ} (htask : w.tasks[id]? = some (.unmapping slot addr n))
    (honest : env.Honest w.fs) {reply : Memfs.Reply}
    (hprovide : provide env (.unmap addr n) w.fs = some (.ok reply, fs))
    (hlive : ∀ j, fs.live j + (if (addr, n) = j then 1 else 0) = w.fs.live j) :
    Sound { w with fs := fs, tasks := w.tasks.insert id (.clearing slot addr n) } := by
  have hslot : w.slots[slot]? = some ⟨.page addr, n⟩ := h.kept.holds id _ htask
  refine { h with
    steady := ?_
    uniform := fun p a b (ha : 0 < fs.live _) (hb : 0 < fs.live _) ↦ ?_
    kept := h.kept.advance htask rfl rfl hslot
    counts := fun p size ↦ ?_ }
  · rw [provide_after h.steady honest (trusted_unmap addr n) hprovide]
    exact h.steady.after_exec honest (trusted_unmap addr n)
  · have hfirst' := hlive (p, a)
    have hsecond' := hlive (p, b)
    exact h.uniform p a b (by omega) (by omega)
  · have hcounts := h.counts p size
    have hlive' := hlive (p, size)
    have hrecorded : recorded (p, size) (w.tasks.insert id (.clearing slot addr n)) =
        recorded (p, size) w.tasks := total_insert_same _ _ htask rfl
    have hcleared : cleared (p, size) (w.tasks.insert id (.clearing slot addr n)) + 0 =
        cleared (p, size) w.tasks + if (addr, n) = (p, size) then 1 else 0 :=
      total_insert_add _ _ _ htask
    simp only
    omega

theorem clear {addr : ℕ} (htask : w.tasks[id]? = some (.clearing slot addr n)) : Sound { w with
      slots := w.slots.modify slot fun e ↦ { e with address := .null }
      tasks := w.tasks.erase id
      unmapped := (addr, n) :: w.unmapped } := by
  have hslot : w.slots[slot]? = some ⟨.page addr, n⟩ := h.kept.holds id _ htask
  rw [modify_eq_set hslot]
  refine h.finish htask rfl hslot ⟨.null, n⟩ (by simp) w.returned _ (fun p size ↦ ?_) fun p size ↦ ?_
  · simp [MappingTask.records, MappingTask.clears]
  · simp [count_cons]
    omega

theorem msync (hid : w.tasks[id]? = none) (hsettled : w.Settled addr) : Sound (w.msync id addr n) := by
  unfold FileMappings.msync
  split
  · next p e he =>
    obtain ⟨slot, hslot, hget⟩ := bind_eq_some_iff.mp he
    obtain ⟨mapped, hmapped⟩ := get_of_mappingSlot hslot
    obtain rfl : e = ⟨.page p, mapped⟩ := some.inj (hget.symm.trans hmapped)
    refine h.tasks
      (h.kept.start hid (fun hlive ↦ ?_) (fun _ hnone ↦ (nomatch hnone)) (fun _ hnone ↦ (nomatch hnone)))
      (fun key ↦ total_insert_new _ _ _ hid) (fun key ↦ total_insert_new _ _ _ hid)
    exact h.length_of_live hsettled hmapped (of_decide_eq_true hlive)
  · exact h

/-- A call ends that had no slot. -/
theorem drop (htask : w.tasks[id]? = some task) (hslot : task.slot? = none) :
    Sound { w with tasks := w.tasks.erase id } := by
  have hkept := h.kept.finish htask (fun j x hx _ ↦ h.kept.holds j x hx) fun slot n hget ↦
    ⟨by simp [hslot], hget⟩
  refine h.tasks hkept (fun key ↦ ?_) (fun key ↦ ?_)
  · have hrecords : task.records key = 0 := by
      cases task with
      | syncing => rfl
      | _ => cases hslot
    rw [← Nat.add_zero (recorded key (w.tasks.erase id)), ← hrecords]
    exact total_erase_add _ _ htask
  · have hclears : task.clears key = 0 := by
      cases task with
      | syncing => rfl
      | _ => cases hslot
    rw [← Nat.add_zero (cleared key (w.tasks.erase id)), ← hclears]
    exact total_erase_add _ _ htask

/-- The provider answers a call that maps nothing. -/
theorem provided {call : Memfs.Call} (honest : env.Honest w.fs) (htrusted : call.Trusted w.fs)
    (hcall : ¬call.Maps) (hprovide : provide env call w.fs = some (answer, fs)) :
    Sound { w with fs := fs } := by
  rw [provide_after h.steady honest htrusted hprovide]
  exact h.provider (h.steady.after_exec honest htrusted) (h.steady.live_after honest htrusted hcall)

end Sound

/-! ## Runs -/

/-- The outside is honest, and the ranges at one address and the `MUnmap`s of one
address keep apart. -/
def orderly : System FileMappings := machine.system fun action w ↦ action.Honest w ∧ action.Orderly w

theorem sound_next {w w' : FileMappings} {action : Action} (h : Sound w) (honest : action.Honest w)
    (horderly : action.Orderly w) (hnext : next action w = some w') : Sound w' := by
  cases action with
  | mmap id request pin =>
    simp only [next, ite_none_right_eq_some, some.injEq, isNone_iff_eq_none] at hnext
    obtain ⟨hid, rfl⟩ := hnext
    exact h.mmap hid request pin
  | map id env =>
    simp only [next] at hnext
    split at hnext
    · next slot file offset n access shared htask =>
      obtain ⟨⟨answer, fs⟩, hanswer, rfl⟩ := map_eq_some_iff.mp hnext
      refine h.map htask honest.1 (honest.2 _ _ _ _ _ _ htask) (fun hshared ↦ ?_) hanswer
      subst hshared
      exact horderly _ _ _ _ _ htask
    · cases hnext
  | record id =>
    simp only [next] at hnext
    split at hnext
    · next htask =>
      cases hnext
      exact h.record htask
    · next htask =>
      cases hnext
      exact h.giveUp htask
    · cases hnext
  | munmap id addr n =>
    simp only [next, ite_none_right_eq_some, some.injEq, isNone_iff_eq_none] at hnext
    obtain ⟨hid, rfl⟩ := hnext
    exact h.munmap hid horderly
  | unmap id env =>
    simp only [next] at hnext
    split at hnext
    · next slot addr n htask =>
      obtain ⟨fs, hprovide, hlive⟩ := h.unmaps env htask
      rw [hprovide] at hnext
      cases hnext
      exact h.unmap htask honest hprovide hlive
    · cases hnext
  | clear id =>
    simp only [next] at hnext
    split at hnext
    · next htask =>
      cases hnext
      exact h.clear htask
    · cases hnext
  | msync id addr n =>
    simp only [next, ite_none_right_eq_some, some.injEq, isNone_iff_eq_none] at hnext
    obtain ⟨hid, rfl⟩ := hnext
    exact h.msync hid horderly
  | sync id env =>
    simp only [next] at hnext
    split at hnext
    · next addr mapped n live htask =>
      obtain ⟨⟨answer, fs⟩, hanswer, rfl⟩ := map_eq_some_iff.mp hnext
      have hfinal : Sound { w with fs := fs, tasks := w.tasks.erase id } :=
        (h.drop htask rfl).provided honest (trusted_sync addr mapped) (fun hmaps ↦ hmaps) hanswer
      cases answer with
      | ok reply => exact hfinal
      | error error =>
        have hdead : ¬(live = true ∧ 0 < w.fs.live (addr, n)) := by
          rintro ⟨hlive, hpos⟩
          obtain rfl : mapped = n := h.kept.holds id _ htask hlive
          rw [provide_sync h.steady hpos] at hanswer
          cases hanswer
        simp only [if_neg hdead]
        exact hfinal
    · cases hnext
  | other env call =>
    simp only [next, ite_none_right_eq_some] at hnext
    obtain ⟨hcall, hnext⟩ := hnext
    obtain ⟨⟨answer, fs⟩, hanswer, rfl⟩ := map_eq_some_iff.mp hnext
    refine h.provided honest.1 honest.2 (fun hmaps ↦ ?_) hanswer
    cases call with
    | map | unmap => cases hcall
    | _ => exact hmaps

theorem sound_of_reachable {w : FileMappings} (h : orderly.Reachable w) : Sound w := by
  refine Machine.invariant sound_initial (fun action state w' hallowed hs hnext ↦ ?_) h
  exact sound_next hs hallowed.1 hallowed.2 hnext

/-- In an orderly run every pair that `MMap` returned is accepted by `MUnmap` as often as it was
returned and no oftener, each such call undoes one mapping of that length, no `MSync` of a live
mapping fails, and between calls the table has the live mappings and nothing else. -/
theorem table_of_reachable {w : FileMappings} (h : orderly.Reachable w) : w.failed = [] ∧ w.unsynced = [] ∧
      (∀ key, w.unmapped.count key ≤ w.returned.count key) ∧
      (∀ id addr n, w.tasks[id]? = none → w.Settled (.page addr) →
        w.unmapped.count (addr, n) < w.returned.count (addr, n) →
        ∃ slot, next (.munmap id (.page addr) n) w =
          some { w with tasks := w.tasks.insert id (.unmapping slot addr n) }) ∧
      (∀ id env slot addr n, w.tasks[id]? = some (.unmapping slot addr n) → ∃ fs, next (.unmap id env) w =
            some { w with fs := fs, tasks := w.tasks.insert id (.clearing slot addr n) } ∧
          ∀ other, fs.live other + (if (addr, n) = other then 1 else 0) = w.fs.live other) ∧
      (w.tasks = ∅ → (∀ addr n, w.slots.count ⟨.page addr, n⟩ = w.fs.live (addr, n)) ∧
        ∀ n, (⟨.table, n⟩ : Slot) ∉ w.slots) := by
  have hsound := sound_of_reachable h
  refine ⟨hsound.quiet.1, hsound.quiet.2, fun key ↦ ?_, fun id addr n hid hsettled hcount ↦ ?_,
    fun id env slot addr n htask ↦ ?_, fun hidle ↦ ⟨fun addr n ↦ ?_, fun n hmem ↦ ?_⟩⟩
  · obtain ⟨addr, n⟩ := key
    rw [hsound.logs addr n]
    exact Nat.le_add_right _ _
  · obtain ⟨slot, hslot, hentry, hpos⟩ := hsound.found hsettled hcount
    refine ⟨slot, ?_⟩
    have hlength : n ≠ 0 ∧ (w.slots[slot]?).map Slot.length = some n := ⟨hpos, by simp [hentry]⟩
    simp only [next, hid, isNone_none, if_true, FileMappings.munmap, hslot, if_pos hlength]
  · obtain ⟨fs, hprovide, hlive⟩ := hsound.unmaps env htask
    refine ⟨fs, ?_, hlive⟩
    simp only [next, htask, hprovide, map_some]
  · have hcounts := hsound.counts addr n
    have hrecorded : recorded (addr, n) w.tasks = 0 := by
      rw [hidle]
      exact total_empty _
    have hcleared : cleared (addr, n) w.tasks = 0 := by
      rw [hidle]
      exact total_empty _
    omega
  · obtain ⟨slot, hslot⟩ := getElem?_of_mem hmem
    obtain ⟨id, task, htask, _⟩ := hsound.kept.tables slot n hslot
    rw [hidle] at htask
    simp at htask

/-! ## Two lengths at one address -/

/-- One new page is where none is yet. -/
def paging : Memfs.Env :=
  { Memfs.State.granting 16 with pages := fun size ↦ if size = Memfs.page then some Memfs.page else none }

theorem paging_honest (hfresh : fs.handles[16]? = none)
    (hnodes : ∀ e ∈ fs.nodes.toList, e.2.body.pages? = none) (hmappings : fs.mappings = ∅) :
    paging.Honest fs where
  box_fresh := hfresh
  box_value := by decide
  pages_apart := by
    intro size base _ owner block hblock
    exfalso
    cases owner with
    | node id =>
      obtain ⟨node, hnode, hpages⟩ := bind_eq_some_iff.mp hblock
      have hnone := hnodes (id, node) (ExtTreeMap.mem_toList_iff_getElem?_eq_some.mpr hnode)
      cases hnone.symm.trans hpages
    | copy key =>
      simp only [Memfs.State.block, hmappings] at hblock
      simp at hblock
  pages_inside := by
    intro size base hpages
    simp only [paging, ite_none_right_eq_some, some.injEq] at hpages
    obtain ⟨rfl, rfl⟩ := hpages
    decide

/-- A file of three bytes is open. -/
def written : FileMappings := { initial with fs := Memfs.State.fileWritten.1 }

/-- `MMap` of a length at the beginning of the file. -/
def requesting (id length : ℕ) : Action := .mmap id ⟨length, protRead, mapShared, 0⟩ (some Memfs.handleAlign)

def reserved : FileMappings := written.mmap 0 ⟨1, protRead, mapShared, 0⟩ (some Memfs.handleAlign)

/-- The first byte is mapped. -/
def mappedOnce : FileMappings := (machine.run [.map 0 paging, .record 0] reserved).getD reserved

/-- The first two bytes are mapped as well, at the same address. -/
def mappedTwice : FileMappings :=
  (machine.run [requesting 1 2, .map 1 (Memfs.State.granting 16), .record 1] mappedOnce).getD mappedOnce

variable {allowed : Action → FileMappings → Prop}

theorem reachable_reserved
    (hj : ∀ env call w, env.Honest w.fs ∧ call.Trusted w.fs → allowed (.other env call) w)
    (hrequest : ∀ w, allowed (requesting 0 1) w) : (machine.system allowed).Reachable reserved := by
  have hopened : (machine.system allowed).Reachable { initial with fs := Memfs.State.fileOpen.1 } := by
    refine .of_step (.of_start rfl) ⟨.other (Memfs.State.granting 8) Memfs.State.creating, ?_, rfl⟩
    exact hj _ _ _ (Memfs.State.allowed_of_callable rfl)
  have hwritten : (machine.system allowed).Reachable written := by
    refine hopened.of_step ⟨.other (Memfs.State.granting 16) Memfs.State.filling, ?_, rfl⟩
    exact hj _ _ _ (Memfs.State.allowed_of_callable rfl)
  exact hwritten.of_step ⟨requesting 0 1, hrequest written, rfl⟩

theorem honest_reserved : (Action.map 0 paging).Honest reserved := by
  refine ⟨paging_honest rfl (by decide) rfl, fun slot file offset n access shared htask ↦ ?_⟩
  cases htask
  exact .inr (.inr rfl)

theorem orderly_reserved : (Action.map 0 paging).Orderly reserved := by
  intro slot file offset n access htask
  cases htask
  intro id access pages j hhandle hc
  cases hhandle
  cases hc

theorem reachable_mappedOnce (h : (machine.system allowed).Reachable reserved)
    (hmap : allowed (.map 0 paging) reserved) (hrecord : ∀ w, allowed (.record 0) w) :
    (machine.system allowed).Reachable mappedOnce :=
  (h.of_step ⟨.map 0 paging, hmap, rfl⟩).of_step ⟨.record 0, hrecord _, rfl⟩

theorem table_of_reachable_mappedOnce :
    orderly.Reachable mappedOnce ∧ mappedOnce.returned = [(Memfs.page, 1)] ∧
    mappedOnce.slots.count ⟨.page Memfs.page, 1⟩ = mappedOnce.fs.live (Memfs.page, 1) ∧
    ∃ slot, next (.munmap 2 (.page Memfs.page) 1) mappedOnce =
      some { mappedOnce with tasks := mappedOnce.tasks.insert 2 (.unmapping slot Memfs.page 1) } := by
  have hreserved : orderly.Reachable reserved :=
    reachable_reserved (fun _ _ _ honest ↦ ⟨honest, trivial⟩) (fun _ ↦ ⟨trivial, trivial⟩)
  have hreach : orderly.Reachable mappedOnce :=
    reachable_mappedOnce hreserved ⟨honest_reserved, orderly_reserved⟩ (fun _ ↦ ⟨trivial, trivial⟩)
  obtain ⟨_, _, _, haccepts, _, hidle⟩ := table_of_reachable hreach
  have htasks : mappedOnce.tasks = ∅ := rfl
  refine ⟨hreach, rfl, (hidle htasks).1 _ _, haccepts 2 Memfs.page 1 rfl (fun id slot n ↦ ?_) (by decide)⟩
  rw [htasks]
  simp

/-- The address of a file's first page is returned with two lengths, and the longer range
cannot be unmapped. -/
theorem refused_unmapping : ∃ w w', (machine.system Action.Honest).Reachable w ∧ w.tasks = ∅ ∧
    w.returned = [(Memfs.page, 2), (Memfs.page, 1)] ∧ w.unmapped = [] ∧ w.fs.live (Memfs.page, 2) = 1 ∧
    next (.munmap 2 (.page Memfs.page) 2) w = some w' ∧ w'.tasks = ∅ ∧ w'.failed = [(Memfs.page, 2)] ∧
    w'.fs.live (Memfs.page, 2) = 1 := by
  have hreserved : (machine.system Action.Honest).Reachable reserved :=
    reachable_reserved (fun _ _ _ honest ↦ honest) (fun _ ↦ trivial)
  have honce : (machine.system Action.Honest).Reachable mappedOnce :=
    reachable_mappedOnce hreserved honest_reserved (fun _ ↦ trivial)
  have hrequested := honce.of_step ⟨requesting 1 2, trivial, rfl⟩
  refine ⟨mappedTwice, _, (hrequested.of_step ⟨.map 1 (Memfs.State.granting 16), ?_, rfl⟩).of_step
    ⟨.record 1, trivial, rfl⟩, rfl, rfl, rfl, rfl, rfl, rfl, rfl, rfl⟩
  refine ⟨⟨rfl, by decide, nofun, nofun⟩, fun slot file offset n access shared htask ↦ ?_⟩
  cases htask
  exact .inr (.inr rfl)

end FileMappings

end DotnetPal.Native
