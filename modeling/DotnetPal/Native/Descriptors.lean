import DotnetPal.Foundations.Machines
import DotnetPal.Foundations.OrderedMap

/-!
# The descriptor table

Managed code names everything it opens by a small integer. A descriptor refers to one object;
duplicates share it, and a call pins it for its duration. The table lock makes each function below
one step; what a thread does outside the lock comes after it, and other threads may come in between.
An object that lost its last reference is destroyed there, by the thread that took the reference.

Objects are never removed from the model: one that was destroyed keeps a count of how often that was.
-/

open Std Option

namespace DotnetPal.Native

open Programs OrderedMap

inductive Kind
  | stream
  | file
  | socket
  | port
  | pipe
  | watch
  deriving DecidableEq, Repr

structure Object where
  kind : Kind
  references : ℕ
  descriptors : ℕ
  /-- The event port the object is registered with, what was asked of it and what it has reported. -/
  port : Option ℕ
  portEvents : BitVec 32
  portReported : BitVec 32
  /-- How often the object was destroyed. -/
  destroys : ℕ
  deriving DecidableEq

namespace Object

/-- A fresh object, which its maker installs. -/
def new (kind : Kind) : Object := ⟨kind, 1, 1, none, 0, 0, 0⟩

def pinned (o : Object) : Object := { o with references := o.references + 1 }

def unpinned (o : Object) : Object := { o with references := o.references - 1 }

def duplicated (o : Object) : Object :=
  { o with references := o.references + 1, descriptors := o.descriptors + 1 }

def closed (o : Object) : Object :=
  { o with references := o.references - 1, descriptors := o.descriptors - 1 }

def unregistered (o : Object) : Object := { o with port := none, portEvents := 0, portReported := 0 }

def destroyed (o : Object) : Object := { o with destroys := o.destroys + 1 }

end Object

/-- What belongs to an event port, under the table lock. -/
structure Port where
  registered : List ℕ
  deriving DecidableEq

structure Table where
  slots : ExtTreeMap ℕ ℕ
  objects : ExtTreeMap ℕ Object
  /-- The ports, each under the object that owns it. -/
  ports : ExtTreeMap ℕ Port
  /-- The first identity that no object has. -/
  fresh : ℕ

namespace Table

def maxFd : ℕ := 1024

/-- The three standard streams exist from the start. -/
def initial : Table where
  slots := ((∅ : ExtTreeMap ℕ ℕ).insert 0 0 |>.insert 1 1).insert 2 2
  objects :=
    ((∅ : ExtTreeMap ℕ Object).insert 0 (.new .stream) |>.insert 1 (.new .stream)).insert 2 (.new .stream)
  ports := ∅
  fresh := 3

def modifyObject (id : ℕ) (change : Object → Object) (t : Table) : Table :=
  { t with objects := t.objects.modify id change }

/-- The first free descriptor above the standard streams. -/
def freeSlot (t : Table) : Option ℕ := (List.range' 3 (maxFd - 3)).find? fun fd ↦ t.slots[fd]?.isNone

/-- Takes a fresh object over. Where the table is full its maker destroys it again. -/
def install (kind : Kind) (t : Table) : Option ℕ × Table :=
  match t.freeSlot with
  | none => (none, t)
  | some fd => (some fd, { t with
      slots := t.slots.insert fd t.fresh
      objects := t.objects.insert t.fresh (.new kind)
      ports := if kind = .port then t.ports.insert t.fresh ⟨[]⟩ else t.ports
      fresh := t.fresh + 1 })

def dup (oldfd : ℕ) (t : Table) : Option ℕ × Table :=
  match t.slots[oldfd]?, t.freeSlot with
  | some id, some fd => (some fd, { t with
      slots := t.slots.insert fd id
      objects := t.objects.modify id Object.duplicated })
  | _, _ => (none, t)

/-- Takes an object off the list of the port it is registered with. -/
def unlinkLocked (id : ℕ) (t : Table) : Table :=
  match t.objects[id]?.bind Object.port with
  | none => t
  | some port => { t with
      ports := t.ports.modify port fun self ↦ { self with registered := self.registered.erase id }
      objects := t.objects.modify id Object.unregistered }

/-- What is left to do once the lock is released. -/
structure Closing where
  object : ℕ
  wake : Option ℕ
  last : Bool

/-- Closes a descriptor; the standard streams stay open. -/
def close (fd : ℕ) (t : Table) : Option Closing × Table :=
  match t.slots[fd]? with
  | none => (none, t)
  | some id =>
    if fd < 3 then (none, t)
    else match t.objects[id]? with
      | none => (none, t)
      | some o =>
        let left := { t with slots := t.slots.erase fd, objects := t.objects.modify id Object.closed }
        let last := o.references - 1 = 0
        if o.descriptors - 1 = 0 then (some ⟨id, o.port, last⟩, left.unlinkLocked id)
        else (some ⟨id, none, last⟩, left)

/-- Pins the object of a descriptor if it has the kind; `none` stands for any kind. -/
def pin (fd : ℕ) (kind : Option Kind) (t : Table) : Option ℕ × Table :=
  match t.slots[fd]? with
  | none => (none, t)
  | some id =>
    if kind = none ∨ t.objects[id]?.map Object.kind = kind then (some id, t.modifyObject id Object.pinned)
    else (none, t)

/-- Lets a pinned object go; whether it was the last reference. -/
def unpin (id : ℕ) (t : Table) : Bool × Table :=
  (t.objects[id]?.map (fun o ↦ o.references - 1) = some 0, t.modifyObject id Object.unpinned)

end Table

/-! ## Threads -/

/-- What a thread is in the middle of. -/
inductive Task
  /-- A call that has pinned an object. -/
  | holding (id : ℕ)
  /-- Outside the lock, with the last reference of an object gone. -/
  | destroying (id : ℕ)
  deriving DecidableEq

def Task.object : Task → ℕ
  | .holding id => id
  | .destroying id => id

structure Descriptors where
  table : Table
  tasks : ExtTreeMap ℕ Task

namespace Descriptors

/-- A step of one thread; a task that begins takes a number that is not in use. -/
inductive Action
  | install (kind : Kind)
  | dup (oldfd : ℕ)
  | close (fd task : ℕ)
  | pin (fd : ℕ) (kind : Option Kind) (task : ℕ)
  | unpin (task : ℕ)
  | destroy (task : ℕ)

/-- After the last reference the object is left to be destroyed. -/
def settle (task id : ℕ) (last : Bool) (tasks : ExtTreeMap ℕ Task) : ExtTreeMap ℕ Task :=
  if last then tasks.insert task (.destroying id) else tasks.erase task

def next : Action → Descriptors → Option Descriptors
  | .install kind, w => some { w with table := (w.table.install kind).2 }
  | .dup oldfd, w => some { w with table := (w.table.dup oldfd).2 }
  | .close fd task, w =>
    if task ∈ w.tasks then none
    else match w.table.close fd with
      | (none, t) => some { w with table := t }
      | (some closing, t) => some ⟨t, settle task closing.object closing.last w.tasks⟩
  | .pin fd kind task, w =>
    if task ∈ w.tasks then none
    else match w.table.pin fd kind with
      | (none, t) => some { w with table := t }
      | (some id, t) => some ⟨t, w.tasks.insert task (.holding id)⟩
  | .unpin task, w =>
    match w.tasks[task]? with
    | some (.holding id) =>
      let (last, t) := w.table.unpin id
      some ⟨t, settle task id last w.tasks⟩
    | _ => none
  | .destroy task, w =>
    match w.tasks[task]? with
    | some (.destroying id) => some ⟨w.table.modifyObject id Object.destroyed, w.tasks.erase task⟩
    | _ => none

def machine : Machine Descriptors Action := ⟨⟨Table.initial, ∅⟩, next⟩

/-! ## Counts -/

end Descriptors

/-- The counts of an object that `named` slots name, `pins` calls have pinned and `doomed` threads
are about to destroy. -/
structure Object.Exact (o : Object) (named pins doomed : ℕ) : Prop where
  descriptors_eq : o.descriptors = named
  references_eq : o.references = o.descriptors + pins
  destroys_eq : o.destroys + doomed = if o.references = 0 then 1 else 0

namespace Object.Exact

variable {o : Object} {named pins doomed : ℕ}

theorem new (kind : Kind) : (Object.new kind).Exact 1 0 0 := ⟨rfl, rfl, rfl⟩

variable (h : o.Exact named pins doomed)
include h

/-- What a slot names or a call has pinned was not destroyed and will not be while that is so. -/
theorem alive (hused : 0 < named + pins) : 0 < o.references ∧ o.destroys = 0 ∧ doomed = 0 := by
  have hdescriptors := h.descriptors_eq
  have hreferences := h.references_eq
  have hdestroys := h.destroys_eq
  rw [if_neg (by omega)] at hdestroys
  omega

theorem duplicated (hused : 0 < named) : o.duplicated.Exact (named + 1) pins doomed := by
  obtain ⟨_, hdestroys, hdoomed⟩ := h.alive (by omega)
  refine ⟨congrArg (· + 1) h.descriptors_eq, ?_, ?_⟩
  · have hreferences := h.references_eq
    simp only [Object.duplicated]
    omega
  · simp [Object.duplicated, hdestroys, hdoomed]

theorem pinned (hused : 0 < named) : o.pinned.Exact named (pins + 1) doomed := by
  obtain ⟨_, hdestroys, hdoomed⟩ := h.alive (by omega)
  refine ⟨h.descriptors_eq, congrArg (· + 1) h.references_eq, ?_⟩
  simp [Object.pinned, hdestroys, hdoomed]

omit h in
/-- The last of the references leaves the object to the thread that took it. -/
theorem unpinned (h : o.Exact named (pins + 1) doomed) :
    o.unpinned.Exact named pins (doomed + if o.references - 1 = 0 then 1 else 0) := by
  obtain ⟨_, hdestroys, hdoomed⟩ := h.alive (by omega)
  refine ⟨h.descriptors_eq, ?_, ?_⟩
  · have hreferences := h.references_eq
    simp only [Object.unpinned]
    omega
  · simp [Object.unpinned, hdestroys, hdoomed]

omit h in
theorem closed (h : o.Exact (named + 1) pins doomed) :
    o.closed.Exact named pins (doomed + if o.references - 1 = 0 then 1 else 0) := by
  obtain ⟨_, hdestroys, hdoomed⟩ := h.alive (by omega)
  have hdescriptors := h.descriptors_eq
  have hreferences := h.references_eq
  refine ⟨?_, ?_, ?_⟩
  · simp only [Object.closed]
    omega
  · simp only [Object.closed]
    omega
  · simp [Object.closed, hdestroys, hdoomed]

theorem unregistered : o.unregistered.Exact named pins doomed :=
  ⟨h.descriptors_eq, h.references_eq, h.destroys_eq⟩

omit h

theorem destroyed (h : o.Exact named pins (doomed + 1)) : o.destroyed.Exact named pins doomed := by
  refine ⟨h.descriptors_eq, h.references_eq, ?_⟩
  change o.destroys + 1 + doomed = if o.references = 0 then 1 else 0
  rw [← h.destroys_eq]
  omega

end Object.Exact

variable {kind : Option Kind}

namespace Table

variable {t : Table} {fd id : ℕ}

/-- The slots that name an object. -/
def named (t : Table) (id : ℕ) : ℕ := tally id t.slots

theorem freeSlot_eq_some (h : t.freeSlot = some fd) : t.slots[fd]? = none ∧ 3 ≤ fd := by
  have hfree := List.find?_some h
  have hrange := List.mem_of_find?_eq_some h
  simp only [isNone_iff_eq_none] at hfree
  exact ⟨hfree, (List.mem_range'_1.mp hrange).1⟩

theorem get_modifyObject (change : Object → Object) (j : ℕ) : (t.modifyObject id change).objects[j]? =
      if id = j then t.objects[j]?.map change else t.objects[j]? :=
  get_modify _ _ _ _

/-- What holds of the table whatever the threads do. -/
structure Sound (t : Table) : Prop where
  slot_live : ∀ (fd id : ℕ), t.slots[fd]? = some id → id ∈ t.objects
  below : ∀ id, id ∈ t.objects → id < t.fresh
  streams : ∀ fd, fd < 3 → t.slots[fd]? = some fd

theorem Sound.named_fresh (h : t.Sound) : t.named t.fresh = 0 := by
  refine (tally_eq_zero_iff _ _).mpr fun fd hslot ↦ ?_
  exact absurd (h.below _ (h.slot_live fd _ hslot)) (Nat.lt_irrefl _)

/-- The counts of one object, for given pins and given threads about to destroy it. -/
def ExactAt (t : Table) (pins doomed : ℕ → ℕ) (id : ℕ) : Prop :=
  ∀ o, t.objects[id]? = some o → o.Exact (t.named id) (pins id) (doomed id)

variable {pins doomed : ℕ → ℕ}

theorem Sound.install (h : t.Sound) (kind : Kind) : (t.install kind).2.Sound := by
  unfold Table.install
  split
  · exact h
  · rename_i fd hfd
    obtain ⟨hfree, hlow⟩ := freeSlot_eq_some hfd
    refine ⟨fun j id hslot ↦ ?_, fun id hid ↦ ?_, fun j hj ↦ ?_⟩
    · rcases insert_cases hslot with ⟨rfl, rfl⟩ | ⟨_, hslot⟩
      · exact ExtTreeMap.mem_insert_self
      · exact ExtTreeMap.mem_insert.mpr (.inr (h.slot_live j id hslot))
    · rcases ExtTreeMap.mem_insert.mp hid with hid | hid
      · rw [Std.compare_eq_iff_eq] at hid
        exact Nat.lt_succ_of_le hid.ge
      · exact Nat.lt_succ_of_lt (h.below id hid)
    · rw [get_insert, if_neg (by omega)]
      exact h.streams j hj

theorem ExactAt.install (h : t.ExactAt pins doomed id) (hs : t.Sound) (kind : Kind)
    (hpins : pins t.fresh = 0) (hdoomed : doomed t.fresh = 0) :
    (t.install kind).2.ExactAt pins doomed id := by
  unfold Table.install
  split
  · exact h
  · rename_i fd hfd
    have hnamed : tally id (t.slots.insert fd t.fresh) = t.named id + if t.fresh = id then 1 else 0 :=
      tally_insert_new _ _ _ (freeSlot_eq_some hfd).1
    intro o hobject
    change o.Exact (tally id (t.slots.insert fd t.fresh)) _ _
    rw [hnamed]
    rcases insert_cases hobject with ⟨rfl, rfl⟩ | ⟨hid, hobject⟩
    · rw [if_pos rfl, hs.named_fresh, hpins, hdoomed]
      exact .new kind
    · rw [if_neg hid]
      exact h o hobject

variable {change : Object → Object}

theorem mem_modify {objects : ExtTreeMap ℕ Object} {j : ℕ} :
    j ∈ objects.modify id change ↔ j ∈ objects := ExtTreeMap.mem_modify

theorem Sound.dup (h : t.Sound) (oldfd : ℕ) : (t.dup oldfd).2.Sound := by
  unfold Table.dup
  split
  · rename_i id fd hslot hfd
    obtain ⟨hfree, hlow⟩ := freeSlot_eq_some hfd
    refine ⟨fun j x hj ↦ mem_modify.mpr ?_, fun j hj ↦ h.below j (mem_modify.mp hj), fun j hj ↦ ?_⟩
    · rcases insert_cases hj with ⟨rfl, rfl⟩ | ⟨_, hj⟩
      · exact h.slot_live oldfd id hslot
      · exact h.slot_live j x hj
    · rw [get_insert, if_neg (by omega)]
      exact h.streams j hj
  · exact h

theorem named_pos (hslot : t.slots[fd]? = some id) : 0 < t.named id := tally_pos _ hslot

theorem ExactAt.dup (h : t.ExactAt pins doomed id) (oldfd : ℕ) :
    (t.dup oldfd).2.ExactAt pins doomed id := by
  unfold Table.dup
  split
  · rename_i source fd hslot hfd
    have hnamed : tally id (t.slots.insert fd source) = t.named id + if source = id then 1 else 0 :=
      tally_insert_new _ _ _ (freeSlot_eq_some hfd).1
    intro o hobject
    change o.Exact (tally id (t.slots.insert fd source)) _ _
    rw [hnamed]
    rcases modify_cases hobject with ⟨rfl, old, hold, rfl⟩ | ⟨hid, hobject⟩
    · rw [if_pos rfl]
      exact (h old hold).duplicated (named_pos hslot)
    · rw [if_neg hid]
      exact h o hobject
  · exact h

theorem Sound.modifyObject (h : t.Sound) (id : ℕ) (change : Object → Object) :
    (t.modifyObject id change).Sound :=
  ⟨fun fd j hslot ↦ mem_modify.mpr (h.slot_live fd j hslot), fun j hj ↦ h.below j (mem_modify.mp hj),
    h.streams⟩

theorem Sound.pin (h : t.Sound) (fd : ℕ) (kind : Option Kind) : (t.pin fd kind).2.Sound := by
  unfold Table.pin
  split
  · exact h
  · split
    · exact h.modifyObject _ _
    · exact h

theorem Sound.unpin (h : t.Sound) (id : ℕ) : (t.unpin id).2.Sound := h.modifyObject id _

/-- What changes one object and no slot. -/
theorem ExactAt.modifyObject (h : t.ExactAt pins doomed id) {changed : ℕ} {pinsNow doomedNow : ℕ → ℕ}
    (hsame : changed ≠ id → pinsNow id = pins id ∧ doomedNow id = doomed id)
    (hchange : changed = id → ∀ o, t.objects[id]? = some o →
      o.Exact (t.named id) (pins id) (doomed id) → (change o).Exact (t.named id) (pinsNow id)
        (doomedNow id)) :
    (t.modifyObject changed change).ExactAt pinsNow doomedNow id := by
  intro o hobject
  rw [get_modifyObject] at hobject
  split at hobject
  · rename_i hid
    obtain ⟨old, hold, rfl⟩ := map_eq_some_iff.mp hobject
    exact hchange hid old hold (h old hold)
  · rename_i hid
    obtain ⟨hpins, hdoomed⟩ := hsame hid
    rw [hpins, hdoomed]
    exact h o hobject

/-- One more where the condition holds. -/
def oneIf (condition : Prop) [Decidable condition] : ℕ := if condition then 1 else 0

/-- What a close that finds an object leaves: one slot and one descriptor less. -/
def closed (fd id : ℕ) (t : Table) : Table :=
  { t with slots := t.slots.erase fd, objects := t.objects.modify id Object.closed }

/-- A close does nothing, or takes a slot away from the object it names. -/
theorem close_cases (fd : ℕ) (t : Table) :
    t.close fd = (none, t) ∨ ∃ id o, 3 ≤ fd ∧ t.slots[fd]? = some id ∧ t.objects[id]? = some o ∧
      (o.descriptors - 1 = 0 ∧
          t.close fd = (some ⟨id, o.port, o.references - 1 = 0⟩, (t.closed fd id).unlinkLocked id) ∨
        o.descriptors - 1 ≠ 0 ∧ t.close fd = (some ⟨id, none, o.references - 1 = 0⟩, t.closed fd id)) := by
  unfold close
  split
  · exact .inl rfl
  · rename_i id hslot
    split
    · exact .inl rfl
    · rename_i hfd
      split
      · exact .inl rfl
      · rename_i o hobject
        refine .inr ⟨id, o, Nat.not_lt.mp hfd, hslot, hobject, ?_⟩
        by_cases hclosed : o.descriptors - 1 = 0
        · exact .inl ⟨hclosed, if_pos hclosed⟩
        · exact .inr ⟨hclosed, if_neg hclosed⟩

theorem Sound.closed (h : t.Sound) (hfd : 3 ≤ fd) (id : ℕ) : (t.closed fd id).Sound := by
  refine ⟨fun j x hj ↦ mem_modify.mpr ?_, fun j hj ↦ h.below j (mem_modify.mp hj), fun j hj ↦ ?_⟩
  · simp only [Table.closed] at hj
    exact h.slot_live j x (get_of_erase hj).2
  · simp only [Table.closed]
    rw [get_erase, if_neg (by omega)]
    exact h.streams j hj

theorem Sound.unlinkLocked (h : t.Sound) (id : ℕ) : (t.unlinkLocked id).Sound := by
  unfold Table.unlinkLocked
  split
  · exact h
  · exact ⟨fun fd j hslot ↦ mem_modify.mpr (h.slot_live fd j hslot),
      fun j hj ↦ h.below j (mem_modify.mp hj), h.streams⟩

theorem Sound.close (h : t.Sound) (fd : ℕ) : (t.close fd).2.Sound := by
  rcases close_cases fd t with hclose | ⟨id, o, hfd, _, _, ⟨_, hclose⟩ | ⟨_, hclose⟩⟩ <;> rw [hclose]
  · exact h
  · exact (h.closed hfd id).unlinkLocked id
  · exact h.closed hfd id

theorem ExactAt.closed (h : t.ExactAt pins doomed id) {source : ℕ} {o : Object}
    (hslot : t.slots[fd]? = some source) (hobject : t.objects[source]? = some o) :
    (t.closed fd source).ExactAt pins (fun j ↦ doomed j + oneIf (source = j ∧ o.references - 1 = 0))
      id := by
  have hnamed : tally id (t.slots.erase fd) + (if source = id then 1 else 0) = t.named id :=
    tally_erase_add _ _ hslot
  intro x hx
  change x.Exact (tally id (t.slots.erase fd)) _ _
  simp only [Table.closed] at hx
  rw [get_modify] at hx
  split at hx
  · rename_i hid
    subst hid
    rw [hobject, map_some, some.injEq] at hx
    subst hx
    rw [if_pos rfl] at hnamed
    have hexact := h o hobject
    rw [← hnamed] at hexact
    simpa [oneIf] using hexact.closed
  · rename_i hid
    rw [if_neg hid, Nat.add_zero] at hnamed
    rw [hnamed]
    simpa [oneIf, hid] using h x hx

theorem ExactAt.unlinkLocked (h : t.ExactAt pins doomed id) (j : ℕ) :
    (t.unlinkLocked j).ExactAt pins doomed id := by
  unfold Table.unlinkLocked
  split
  · exact h
  · intro o hobject
    change o.Exact (t.named id) _ _
    rcases modify_cases hobject with ⟨_, old, hold, rfl⟩ | ⟨_, hobject⟩
    · exact (h old hold).unregistered
    · exact h o hobject

variable {w' : Table}

theorem ExactAt.close (h : t.ExactAt pins doomed id) {closing : Closing}
    (hclose : t.close fd = (some closing, w')) :
    w'.ExactAt pins (fun j ↦ doomed j + oneIf (closing.object = j ∧ closing.last)) id := by
  rcases close_cases fd t with hnone | ⟨source, o, _, hslot, hobject, ⟨_, hsome⟩ | ⟨_, hsome⟩⟩
  · rw [hclose] at hnone
    cases hnone
  · rw [hclose] at hsome
    cases hsome
    simpa using (h.closed hslot hobject).unlinkLocked source
  · rw [hclose] at hsome
    cases hsome
    simpa using h.closed hslot hobject

theorem ExactAt.pin (h : t.ExactAt pins doomed id) {x : ℕ} (hpin : t.pin fd kind = (some x, w')) :
    w'.ExactAt (fun j ↦ pins j + oneIf (x = j)) doomed id := by
  unfold Table.pin at hpin
  split at hpin
  · cases hpin
  · rename_i source hslot
    split at hpin <;> cases hpin
    refine h.modifyObject (fun hne ↦ ⟨by simp [oneIf, hne], rfl⟩) fun hid o _ hexact ↦ ?_
    subst hid
    simpa [oneIf] using hexact.pinned (named_pos hslot)

/-- A call lets go of a pin it has. -/
theorem ExactAt.unpin {source : ℕ} (h : t.ExactAt (fun j ↦ pins j + oneIf (source = j)) doomed id) :
    (t.unpin source).2.ExactAt pins (fun j ↦ doomed j + oneIf (source = j ∧ (t.unpin source).1)) id := by
  refine h.modifyObject (fun hne ↦ ⟨by simp [oneIf, hne], by simp [oneIf, hne]⟩) fun hid o hobject
    hexact ↦ ?_
  subst hid
  simp only [oneIf, if_true] at hexact
  simpa [oneIf, Table.unpin, hobject] using hexact.unpinned

/-! Objects stay in the model. -/

theorem mem_install (kind : Kind) (h : id ∈ t.objects) : id ∈ (t.install kind).2.objects := by
  unfold Table.install
  split
  · exact h
  · exact ExtTreeMap.mem_insert.mpr (.inr h)

theorem mem_dup (oldfd : ℕ) (h : id ∈ t.objects) : id ∈ (t.dup oldfd).2.objects := by
  unfold Table.dup
  split
  · exact mem_modify.mpr h
  · exact h

theorem mem_unlinkLocked (j : ℕ) (h : id ∈ t.objects) : id ∈ (t.unlinkLocked j).objects := by
  unfold Table.unlinkLocked
  split
  · exact h
  · exact mem_modify.mpr h

theorem mem_close (fd : ℕ) (h : id ∈ t.objects) : id ∈ (t.close fd).2.objects := by
  rcases close_cases fd t with hclose | ⟨j, o, _, _, _, ⟨_, hclose⟩ | ⟨_, hclose⟩⟩ <;> rw [hclose]
  · exact h
  · exact mem_unlinkLocked j (mem_modify.mpr h)
  · exact mem_modify.mpr h

theorem mem_pin (fd : ℕ) (kind : Option Kind) (h : id ∈ t.objects) : id ∈ (t.pin fd kind).2.objects := by
  unfold Table.pin
  split
  · exact h
  · split
    · exact mem_modify.mpr h
    · exact h

theorem eq_of_close_none (h : t.close fd = (none, w')) : w' = t := by
  rcases close_cases fd t with hnone | ⟨_, _, _, _, _, ⟨_, hsome⟩ | ⟨_, hsome⟩⟩
  · rw [h] at hnone
    exact (Prod.mk.inj hnone).2
  all_goals
    rw [h] at hsome
    cases hsome

theorem eq_of_pin_none (h : t.pin fd kind = (none, w')) : w' = t := by
  unfold Table.pin at h
  split at h
  · exact (Prod.mk.inj h).2.symm
  · split at h
    · cases h
    · exact (Prod.mk.inj h).2.symm

/-- What a close or a pin found is an object of the table. -/
theorem Sound.mem_closing (h : t.Sound) {closing : Closing}
    (hclose : t.close fd = (some closing, w')) : closing.object ∈ w'.objects := by
  have hstays : ∀ id, id ∈ t.objects → id ∈ w'.objects := by
    intro id hid
    have hmem := mem_close fd hid
    rwa [hclose] at hmem
  rcases close_cases fd t with hnone | ⟨source, o, _, hslot, _, ⟨_, hsome⟩ | ⟨_, hsome⟩⟩
  · rw [hclose] at hnone
    cases hnone
  all_goals
    rw [hclose] at hsome
    cases hsome
    exact hstays _ (h.slot_live fd source hslot)

theorem Sound.mem_pinned (h : t.Sound) {x : ℕ}
    (hpin : t.pin fd kind = (some x, w')) : x ∈ w'.objects := by
  unfold Table.pin at hpin
  split at hpin
  · cases hpin
  · rename_i source hslot
    split at hpin <;> cases hpin
    exact mem_modify.mpr (h.slot_live fd _ hslot)

end Table

namespace Descriptors

variable {w : Descriptors}

/-- The calls that have an object pinned. -/
def pins (w : Descriptors) (id : ℕ) : ℕ := tally (.holding id) w.tasks

/-- The threads that are about to destroy an object. -/
def doomed (w : Descriptors) (id : ℕ) : ℕ := tally (.destroying id) w.tasks

structure Sound (w : Descriptors) : Prop where
  table : w.table.Sound
  exact : ∀ id, w.table.ExactAt w.pins w.doomed id
  task_live : ∀ (number : ℕ) (task : Task), w.tasks[number]? = some task → task.object ∈ w.table.objects

theorem sound_start : machine.start.Sound := by
  have hnone : ∀ (n : ℕ) (task : Task), machine.start.tasks[n]? ≠ some task := by
    intro n task
    rw [show machine.start.tasks = ∅ from rfl]
    simp
  have hslots (fd : ℕ) : Table.initial.slots[fd]? = if fd < 3 then some fd else none := by
    match fd with
    | 0 | 1 | 2 => rfl
    | fd + 3 => simp [Table.initial]
  have hobjects (id : ℕ) : Table.initial.objects[id]? = if id < 3 then some (.new .stream) else none := by
    match id with
    | 0 | 1 | 2 => rfl
    | id + 3 => simp [Table.initial]
  refine ⟨⟨fun fd id hslot ↦ ?_, fun id hid ↦ ?_, fun fd hfd ↦ (hslots fd).trans (if_pos hfd)⟩,
    fun id o hobject ↦ ?_, fun n task htask ↦ (hnone n task htask).elim⟩
  · rw [show machine.start.table = Table.initial from rfl, hslots] at hslot
    split at hslot
    · rename_i hfd
      rw [ExtTreeMap.mem_iff_isSome_getElem?, show machine.start.table = Table.initial from rfl, hobjects,
        ← some.inj hslot, if_pos hfd]
      rfl
    · cases hslot
  · rw [ExtTreeMap.mem_iff_isSome_getElem?, show machine.start.table = Table.initial from rfl,
      hobjects] at hid
    split at hid
    · assumption
    · cases hid
  · rw [show machine.start.table = Table.initial from rfl, hobjects] at hobject
    split at hobject
    · rename_i hid
      cases hobject
      have hnamed : Table.initial.named id = 1 := by
        match id, hid with
        | 0, _ | 1, _ | 2, _ => rfl
      have hpins : machine.start.pins id = 0 := (tally_eq_zero_iff _ _).mpr fun n ↦ hnone n _
      have hdoomed : machine.start.doomed id = 0 := (tally_eq_zero_iff _ _).mpr fun n ↦ hnone n _
      rw [show machine.start.table = Table.initial from rfl, hnamed, hpins, hdoomed]
      exact .new .stream
    · cases hobject

variable {tasks : ExtTreeMap ℕ Task}

theorem tally_settle_new {task id : ℕ} (hnew : tasks[task]? = none) (last : Bool) (v : Task) :
    tally v (settle task id last tasks) = tally v tasks + Table.oneIf (Task.destroying id = v ∧ last) := by
  unfold settle Table.oneIf
  cases last with
  | true => simp [tally_insert_new _ _ _ hnew]
  | false => simp [erase_eq_self _ hnew]

theorem tally_settle_held {task id : ℕ} (hheld : tasks[task]? = some (Task.holding id))
    (last : Bool) (v : Task) :
    tally v (settle task id last tasks) + Table.oneIf (Task.holding id = v) =
      tally v tasks + Table.oneIf (Task.destroying id = v ∧ last) := by
  unfold settle Table.oneIf
  cases last with
  | true => simpa using tally_insert_add tasks (.destroying id) v hheld
  | false => simpa using tally_erase_add tasks v hheld

theorem task_settle {task id n : ℕ} {last : Bool} {x : Task}
    (h : (settle task id last tasks)[n]? = some x) : x.object = id ∨ tasks[n]? = some x := by
  unfold settle at h
  split at h
  · rcases insert_cases h with ⟨rfl, rfl⟩ | ⟨_, h⟩
    · exact .inl rfl
    · exact .inr h
  · exact .inr (get_of_erase h).2

variable (h : w.Sound)
include h

/-- Where no object of a task is new, no task is of an object that is. -/
theorem Sound.tally_fresh {v : Task} (hv : v.object = w.table.fresh) : tally v w.tasks = 0 := by
  refine (tally_eq_zero_iff _ _).mpr fun n htask ↦ ?_
  have hlive := h.task_live n v htask
  rw [hv] at hlive
  exact absurd (h.table.below _ hlive) (Nat.lt_irrefl _)

theorem Sound.install (kind : Kind) : Sound { w with table := (w.table.install kind).2 } :=
  ⟨h.table.install kind, fun id ↦ (h.exact id).install h.table kind (h.tally_fresh rfl) (h.tally_fresh rfl),
    fun n task htask ↦ Table.mem_install kind (h.task_live n task htask)⟩

theorem Sound.dup (oldfd : ℕ) : Sound { w with table := (w.table.dup oldfd).2 } :=
  ⟨h.table.dup oldfd, fun id ↦ (h.exact id).dup oldfd,
    fun n task htask ↦ Table.mem_dup oldfd (h.task_live n task htask)⟩

theorem Sound.close {fd n : ℕ} (hnew : n ∉ w.tasks) {closing : Table.Closing} {t : Table}
    (hclose : w.table.close fd = (some closing, t)) :
    Sound ⟨t, settle n closing.object closing.last w.tasks⟩ := by
  have hfree : w.tasks[n]? = none := ExtTreeMap.getElem?_eq_none hnew
  have hpins : pins ⟨t, settle n closing.object closing.last w.tasks⟩ = w.pins := by
    funext id
    simp [pins, tally_settle_new hfree, Table.oneIf]
  have hdoomed : doomed ⟨t, settle n closing.object closing.last w.tasks⟩ =
      fun j ↦ w.doomed j + Table.oneIf (closing.object = j ∧ closing.last) := by
    funext id
    simp [doomed, tally_settle_new hfree]
  refine ⟨?_, fun id ↦ ?_, fun j task htask ↦ ?_⟩
  · have hs := h.table.close fd
    rwa [hclose] at hs
  · rw [hpins, hdoomed]
    exact (h.exact id).close hclose
  · rcases task_settle htask with hobject | hold
    · rw [hobject]
      exact h.table.mem_closing hclose
    · have hmem := Table.mem_close fd (h.task_live j task hold)
      rwa [hclose] at hmem

theorem Sound.pin {fd n : ℕ} (hnew : n ∉ w.tasks) {x : ℕ} {t : Table}
    (hpin : w.table.pin fd kind = (some x, t)) : Sound ⟨t, w.tasks.insert n (.holding x)⟩ := by
  have hfree : w.tasks[n]? = none := ExtTreeMap.getElem?_eq_none hnew
  have hpins : pins ⟨t, w.tasks.insert n (.holding x)⟩ =
      fun j ↦ w.pins j + Table.oneIf (x = j) := by
    funext id
    simp [pins, tally_insert_new _ _ _ hfree, Table.oneIf]
  have hdoomed : doomed ⟨t, w.tasks.insert n (.holding x)⟩ = w.doomed := by
    funext id
    simp [doomed, tally_insert_new _ _ _ hfree]
  refine ⟨?_, fun id ↦ ?_, fun j task htask ↦ ?_⟩
  · have hs := h.table.pin fd kind
    rwa [hpin] at hs
  · rw [hpins, hdoomed]
    exact (h.exact id).pin hpin
  · rcases insert_cases htask with ⟨rfl, rfl⟩ | ⟨_, htask⟩
    · exact h.table.mem_pinned hpin
    · have hmem := Table.mem_pin fd kind (h.task_live j task htask)
      rwa [hpin] at hmem

theorem Sound.unpin {n id : ℕ} (hheld : w.tasks[n]? = some (.holding id)) :
    Sound ⟨(w.table.unpin id).2, settle n id (w.table.unpin id).1 w.tasks⟩ := by
  have hpins : w.pins = fun j ↦ pins ⟨(w.table.unpin id).2, settle n id (w.table.unpin id).1 w.tasks⟩
      j + Table.oneIf (id = j) := by
    funext j
    have htally := tally_settle_held hheld (w.table.unpin id).1 (.holding j)
    simp [Table.oneIf] at htally
    simp only [pins, Table.oneIf]
    omega
  have hdoomed : doomed ⟨(w.table.unpin id).2, settle n id (w.table.unpin id).1 w.tasks⟩ =
      fun j ↦ w.doomed j + Table.oneIf (id = j ∧ (w.table.unpin id).1) := by
    funext j
    simpa [doomed, Table.oneIf] using tally_settle_held hheld (w.table.unpin id).1 (.destroying j)
  refine ⟨h.table.unpin id, fun j ↦ ?_, fun j task htask ↦ Table.mem_modify.mpr ?_⟩
  · rw [hdoomed]
    refine Table.ExactAt.unpin ?_
    have hexact := h.exact j
    rwa [hpins] at hexact
  · rcases task_settle htask with hobject | hold
    · rw [hobject]
      exact h.task_live n _ hheld
    · exact h.task_live j task hold

theorem Sound.destroy {n id : ℕ} (hdoom : w.tasks[n]? = some (.destroying id)) :
    Sound ⟨w.table.modifyObject id Object.destroyed, w.tasks.erase n⟩ := by
  have hpins (j : ℕ) : pins ⟨w.table.modifyObject id Object.destroyed, w.tasks.erase n⟩ j = w.pins j := by
    simpa [pins] using tally_erase_add w.tasks (.holding j) hdoom
  have hdoomed (j : ℕ) :
      doomed ⟨w.table.modifyObject id Object.destroyed, w.tasks.erase n⟩ j + Table.oneIf (id = j) =
        w.doomed j := by
    simpa [doomed, Table.oneIf] using tally_erase_add w.tasks (.destroying j) hdoom
  refine ⟨h.table.modifyObject id _, fun j ↦ ?_, fun j task htask ↦ Table.mem_modify.mpr ?_⟩
  · refine (h.exact j).modifyObject (fun hne ↦ ⟨hpins j, ?_⟩) fun hid o _ hexact ↦ ?_
    · have hsame := hdoomed j
      simpa [Table.oneIf, hne] using hsame
    · subst hid
      rw [hpins]
      rw [← hdoomed id, Table.oneIf, if_pos rfl] at hexact
      exact hexact.destroyed
  · exact h.task_live j task (get_of_erase htask).2

theorem Sound.next {action : Action} {w' : Descriptors} (hnext : next action w = some w') : w'.Sound := by
  cases action with
  | install kind =>
    cases hnext
    exact h.install kind
  | dup oldfd =>
    cases hnext
    exact h.dup oldfd
  | close fd n =>
    simp only [Descriptors.next] at hnext
    split at hnext
    · cases hnext
    · rename_i hnew
      split at hnext
      · rename_i t hclose
        cases hnext
        rw [Table.eq_of_close_none hclose]
        exact h
      · rename_i closing t hclose
        cases hnext
        exact h.close hnew hclose
  | pin fd kind n =>
    simp only [Descriptors.next] at hnext
    split at hnext
    · cases hnext
    · rename_i hnew
      split at hnext
      · rename_i t hpin
        cases hnext
        rw [Table.eq_of_pin_none hpin]
        exact h
      · rename_i x t hpin
        cases hnext
        exact h.pin hnew hpin
  | unpin n =>
    simp only [Descriptors.next] at hnext
    split at hnext
    · rename_i id hheld
      cases hnext
      exact h.unpin hheld
    · cases hnext
  | destroy n =>
    simp only [Descriptors.next] at hnext
    split at hnext
    · rename_i id hdoom
      cases hnext
      exact h.destroy hdoom
    · cases hnext

omit h

theorem sound_of_reachable (h : machine.runs.Reachable w) : w.Sound :=
  Machine.invariant sound_start (fun _ _ _ _ hs hnext ↦ hs.next hnext) h

/-- In every interleaving the counts are exact: descriptors are slots, references are descriptors
and pins. An object whose references are gone was destroyed once or is about to be, by one thread;
what a slot names or a call has pinned was not, and the standard streams never are. A step that
destroys an object finds it without references and not destroyed before. -/
theorem counts_of_reachable (hreach : machine.runs.Reachable w) :
    (∀ (id : ℕ) (o : Object), w.table.objects[id]? = some o →
      o.descriptors = w.table.named id ∧ o.references = o.descriptors + w.pins id ∧
      o.destroys + w.doomed id = if o.references = 0 then 1 else 0) ∧
    (∀ (fd id : ℕ), w.table.slots[fd]? = some id →
      ∃ o, w.table.objects[id]? = some o ∧ 0 < o.references ∧ o.destroys = 0) ∧
    (∀ (task id : ℕ), w.tasks[task]? = some (.holding id) →
      ∃ o, w.table.objects[id]? = some o ∧ 0 < o.references ∧ o.destroys = 0) ∧
    (∀ fd, fd < 3 → w.table.slots[fd]? = some fd) ∧
    (∀ (task : ℕ) (w' : Descriptors), next (.destroy task) w = some w' →
      ∃ id o, w.tasks[task]? = some (.destroying id) ∧ w.table.objects[id]? = some o ∧
        o.references = 0 ∧ o.destroys = 0 ∧ w.doomed id = 1 ∧
        w'.table.objects[id]? = some o.destroyed) := by
  have h := sound_of_reachable hreach
  have halive : ∀ id, id ∈ w.table.objects → 0 < w.table.named id + w.pins id →
      ∃ o, w.table.objects[id]? = some o ∧ 0 < o.references ∧ o.destroys = 0 := by
    intro id hid hused
    obtain ⟨o, hobject⟩ := isSome_iff_exists.mp (ExtTreeMap.mem_iff_isSome_getElem?.mp hid)
    obtain ⟨hreferences, hdestroys, _⟩ := (h.exact id o hobject).alive hused
    exact ⟨o, hobject, hreferences, hdestroys⟩
  refine ⟨fun id o hobject ↦ ?_, fun fd id hslot ↦ ?_, fun task id htask ↦ ?_, h.table.streams,
    fun task w' hnext ↦ ?_⟩
  · have hexact := h.exact id o hobject
    exact ⟨hexact.descriptors_eq, hexact.references_eq, hexact.destroys_eq⟩
  · have hnamed := Table.named_pos hslot
    exact halive id (h.table.slot_live fd id hslot) (by omega)
  · have hpinned : 0 < w.pins id := tally_pos _ htask
    exact halive id (h.task_live task _ htask) (by omega)
  · simp only [next] at hnext
    split at hnext
    · rename_i id hdoom
      cases hnext
      have hlive : id ∈ w.table.objects := h.task_live task _ hdoom
      obtain ⟨o, hobject⟩ := isSome_iff_exists.mp (ExtTreeMap.mem_iff_isSome_getElem?.mp hlive)
      have hdestroys := (h.exact id o hobject).destroys_eq
      have hpos : 0 < w.doomed id := tally_pos _ hdoom
      have hgone : o.references = 0 := by
        by_contra hleft
        rw [if_neg hleft] at hdestroys
        omega
      rw [if_pos hgone] at hdestroys
      refine ⟨id, o, hdoom, hobject, hgone, by omega, by omega, ?_⟩
      rw [Table.get_modifyObject, if_pos rfl, hobject]
      rfl
    · cases hnext

/-- A file that is closed while a call has it pinned. -/
def closedInUse : List Action := [.install .file, .pin 3 none 0, .close 3 1, .unpin 0, .destroy 0]

theorem counts_of_reachable_closedInUse :
    ∃ w, machine.run closedInUse machine.start = some w ∧ ∀ (id : ℕ) (o : Object),
      w.table.objects[id]? = some o → o.descriptors = w.table.named id := by
  have hrun : ∃ w, machine.run closedInUse machine.start = some w := ⟨_, rfl⟩
  obtain ⟨w, hworld⟩ := hrun
  refine ⟨w, hworld, fun id o hobject ↦ ?_⟩
  exact ((counts_of_reachable (Machine.reachable_of_run hworld)).1 id o hobject).1

end Descriptors

end DotnetPal.Native
