import DotnetPal.Memfs.Guarantees
import DotnetPal.Memfs.LockTables

/-!
# Locks over whole runs

The lock table of every file is sound in every reachable state, and every lock belongs to a handle
that is open on the file. A lock on a range changes what its handle holds on the bytes asked for,
and is refused where another handle is in the way.
-/

open Std

namespace DotnetPal.Memfs

open Programs Relation

attribute [local instance] lexOrd

/-- A step of an owner leaves the locks of others with their owners. -/
theorem LockStep.owner_cases {owner : ℕ} {before new : List Lock} (h : LockStep owner before new)
    {held : Lock}
    (hheld : held ∈ new) : held.owner = owner ∨ ∃ old ∈ before, old.owner = held.owner := by
  cases h with
  | give _ _ hperm =>
    obtain ⟨source, hsource, hwithin⟩ := exists_within_of_mem_carved (hperm.mem_iff.mp hheld)
    exact .inr ⟨source, hsource, hwithin.owner.symm⟩
  | take howner _ _ hperm =>
    rcases List.mem_append.mp (hperm.mem_iff.mp hheld) with hmem | hmem
    · obtain ⟨source, hsource, hwithin⟩ := exists_within_of_mem_carved hmem
      exact .inr ⟨source, hsource, hwithin.owner.symm⟩
    · rw [List.mem_singleton.mp hmem]
      exact .inl howner

theorem LockStep.owners {owner : ℕ} {before new : List Lock} (h : ReflTransGen (LockStep owner) before new)
    {held : Lock} (hheld : held ∈ new) : held.owner = owner ∨ ∃ old ∈ before, old.owner = held.owner := by
  induction h generalizing held with
  | refl => exact .inr ⟨held, hheld, rfl⟩
  | tail _ hstep ih =>
    rcases hstep.owner_cases hheld with howner | ⟨old, hold, howner⟩
    · exact .inl howner
    · rw [← howner]
      exact ih hold

namespace State

variable {s s' : State} {env : Env} {call : Call} {reply : Reply}

/-- Every lock table is sound, and its locks belong to open handles of its file. -/
structure Held (s : State) : Prop where
  table : ∀ (id : ℕ) (node : Node), s.nodes[id]? = some node → LockTable node.locks.data
  owner : ∀ (id : ℕ) (node : Node), s.nodes[id]? = some node → ∀ held ∈ node.locks.data,
    ∃ access, s.handles[held.owner]? = some (.file id access)

theorem Held.of_inherits (h : s.Held) (hinherits : s.Inherits s') :
    (∀ (id : ℕ) (node : Node), s'.nodes[id]? = some node → LockTable node.locks.data) ∧
      ∀ (id : ℕ) (node : Node), s'.nodes[id]? = some node → ∀ held ∈ node.locks.data,
        ∃ access, s.handles[held.owner]? = some (.file id access) := by
  refine ⟨fun id node hnode ↦ ?_, fun id node hnode held hheld ↦ ?_⟩
  · cases hinherits id node hnode with
    | fresh hlocks =>
      rw [hlocks]
      exact .nil
    | kept hold hlocks =>
      rw [hlocks]
      exact h.table id _ hold
    | closed hold hlocks =>
      rw [hlocks]
      exact (h.table id _ hold).sublist List.filter_sublist
    | relocked hold _ hsteps => exact (h.table id _ hold).steps hsteps
  · cases hinherits id node hnode with
    | fresh hlocks =>
      rw [hlocks] at hheld
      cases hheld
    | kept hold hlocks =>
      rw [hlocks] at hheld
      exact h.owner id _ hold held hheld
    | closed hold hlocks =>
      rw [hlocks] at hheld
      exact h.owner id _ hold held (List.mem_filter.mp hheld).1
    | relocked hold hhandle hsteps =>
      rcases LockStep.owners hsteps hheld with howner | ⟨old, hmem, howner⟩
      · rw [howner]
        exact ⟨_, hhandle⟩
      · rw [← howner]
        exact h.owner id _ hold old hmem

theorem Held.of_boxed (h : s.Held) (honest : env.Honest s) (hinherits : s.Inherits s')
    (hboxed : Boxed env s call s') : s'.Held := by
  obtain ⟨htable, howner⟩ := h.of_inherits hinherits
  refine ⟨htable, fun id node hnode held hheld ↦ ?_⟩
  obtain ⟨access, hhandle⟩ := howner id node hnode held hheld
  refine ⟨access, ?_⟩
  -- The box of the owner is neither new, nor that of a directory, nor the one that was closed.
  cases hboxed with
  | same hhandles => rw [hhandles, hhandle]
  | opened handle _ hhandles =>
    rw [hhandles, OrderedMap.get_insert, if_neg, hhandle]
    intro hbox
    rw [← hbox, honest.box_fresh] at hhandle
    cases hhandle
  | read dir _ _ _ _ _ hdir _ hhandles =>
    rw [hhandles, OrderedMap.get_insert, if_neg, hhandle]
    intro hbox
    rw [← hbox, hdir] at hhandle
    cases hhandle
  | closed addr handle hx _ hlocks hhandles =>
    rw [hhandles, OrderedMap.get_erase, if_neg, hhandle]
    intro hbox
    rw [← hbox, hx] at hhandle
    exact hlocks id access (Option.some.inj hhandle) node hnode held hheld hbox.symm

theorem held_first : first.Held := by
  have hnone : ∀ (id : ℕ) (node : Node), first.nodes[id]? = some node → node.locks.data = [] := by
    intro id node hnode
    rw [nodes_first] at hnode
    rcases OrderedMap.insert_cases hnode with ⟨rfl, rfl⟩ | ⟨_, hnode⟩
    · rfl
    · simp at hnode
  refine ⟨fun id node hnode ↦ ?_, fun id node hnode held hheld ↦ ?_⟩
  · rw [hnone id node hnode]
    exact .nil
  · rw [hnone id node hnode] at hheld
    cases hheld

theorem Held.step (h : s.Held) (hsteady : s.Steady) (hstep : system.step s s') : s'.Held := by
  obtain ⟨env, call, honest, _, ⟨reply, _, hdeed⟩ | ⟨error, _, rfl | ⟨file, mode, wait, _, hgave⟩⟩⟩ :=
    hsteady.step_cases hstep
  · exact h.of_boxed honest (.of_deed hdeed) (Boxed.of_deed hdeed)
  · exact h
  · have hinherits := Inherits.of_gaveUp hgave
    obtain ⟨id, granted, node, locks, given, _, _, rfl, _⟩ := hgave.given
    have hboxed : Boxed env s call (s.modifyNode id (Node.withLocks locks)) := .same rfl
    exact h.of_boxed honest hinherits hboxed

theorem held_of_reachable (hreach : system.Reachable s) : s.Held := by
  obtain ⟨start, hstart, hrun⟩ := hreach
  induction hrun with
  | refl =>
    rw [show start = first from hstart]
    exact held_first
  | tail hold hstep ih => exact ih.step (steady_of_reachable ⟨start, hstart, hold⟩) hstep

/-! ## Locks on ranges -/

/-- A handle that is refused is not refused for a lock in the way. -/
theorem fileNode_found (file : ℕ) (access : UInt32) :
    Yields (· ≠ .error .wouldBlock) (s.fileNode file access) fun id ↦
      ∃ granted, s.handles[file]? = some (.file id granted) := by
  unfold fileNode borrow
  split
  · exact .error (by simp)
  · cases hhandle : s.handles[file]? with
    | none => exact .error (by simp)
    | some handle =>
      cases handle with
      | file node granted =>
        change Yields _
          (if granted &&& access = access then (.ok node : Result ℕ) else .error Error.accessDenied) _
        split
        · exact .ok ⟨granted, rfl⟩
        · exact .error (by simp)
      | directory | watcher => exact .error (by simp)

/-- The lock a call on a range wants. -/
def rangeLock (file offset length : ℕ) (mode : Files.LockMode) : Lock :=
  ⟨file, false, offset, offset + length, mode = .exclusive⟩

/-- A lock on a range is refused before the table is looked at, or goes to the table. -/
theorem exec_lockRange (env : Env) (file off len : ℕ) (mode : Files.LockMode) (s : State) :
    (∃ fault, s.fileNode file (Files.rangeAccess mode) = .error fault ∧
        exec env (.lockRange file off len mode) s = .error fault s) ∨
      ∃ id, s.fileNode file (Files.rangeAccess mode) = .ok id ∧ ((off + len > Files.wholeEnd ∨ len = 0) ∧
            exec env (.lockRange file off len mode) s = .error Error.invalidArgument s ∨
          ¬(off + len > Files.wholeEnd ∨ len = 0) ∧ Files.lockRange env file off len mode s =
              relock id env.lock mode (rangeLock file off len mode) s) := by
  cases hid : s.fileNode file (Files.rangeAccess mode) with
  | error fault => exact .inl ⟨fault, rfl, map_of_error (bind_of_error (reading_of_error hid))⟩
  | ok id =>
    refine .inr ⟨id, rfl, ?_⟩
    have hread : reading (fun j : State ↦ j.fileNode file (Files.rangeAccess mode)) s = .ok id s :=
      reading_of_ok hid
    by_cases hrange : off + len > Files.wholeEnd ∨ len = 0
    · refine .inl ⟨hrange, map_of_error ((bind_of_ok hread).trans (bind_of_error ?_))⟩
      exact refuseIf_eq_error_iff.mpr ⟨hrange, rfl, rfl⟩
    · exact .inr ⟨hrange, (bind_of_ok hread).trans (bind_of_ok (refuseIf_eq_ok_iff.mpr ⟨hrange, rfl⟩))⟩

theorem rangeLock_proper {file off len : ℕ} (mode : Files.LockMode)
    (h : ¬(off + len > Files.wholeEnd ∨ len = 0)) : (rangeLock file off len mode).Proper :=
  ⟨by simp only [rangeLock]; omega, fun hwhole ↦ nomatch hwhole⟩

/-- A lock on a range that succeeds carves its bytes out of the table and takes them. -/
theorem lockRange_eq_ok (hready : s.Ready) {file off len : ℕ} {mode : Files.LockMode}
    (h : exec env (.lockRange file off len mode) s = .ok reply s') :
    ∃ id node locks, s.fileNode file (Files.rangeAccess mode) = .ok id ∧ s.nodes[id]? = some node ∧
      s' = s.modifyNode id (Node.withLocks locks) ∧ (rangeLock file off len mode).Proper ∧
      ¬(mode ≠ .unlock ∧ Blocked (rangeLock file off len mode) node.locks.data) ∧
      locks.data.Perm (carved (rangeLock file off len mode) node.locks.data ++
        if mode = .unlock then [] else [rangeLock file off len mode]) := by
  rcases exec_lockRange env file off len mode s with
    ⟨fault, _, hrun⟩ | ⟨id, hid, ⟨_, hrun⟩ | ⟨hrange, hrun⟩⟩
  · rw [hrun] at h
    cases h
  · rw [hrun] at h
    cases h
  · obtain ⟨granted, hhandle⟩ := (fileNode_found file _).of_ok hid
    obtain ⟨node, c, hnode, _⟩ := exists_content hready.sound hhandle
    obtain ⟨v, hv, _⟩ := map_eq_ok_iff.mp h
    rw [hrun] at hv
    rcases Files.relock_cases env.lock mode (rangeLock file off len mode) hnode with
      ⟨hrelock, _⟩ | ⟨hfree, hrelock | ⟨locks, hrelock, hperm⟩⟩
    · rw [hrelock] at hv
      cases hv
    · rw [hrelock] at hv
      cases hv
    · rw [hrelock] at hv
      cases hv
      exact ⟨id, node, locks, hid, hnode, rfl, rangeLock_proper mode hrange, hfree, hperm⟩

/-- A lock on a range is blocked by another owner in the way, and by nothing else. -/
theorem lockRange_blocked_iff (hready : s.Ready) {file off len : ℕ} {mode : Files.LockMode} :
    exec env (.lockRange file off len mode) s = .error Error.wouldBlock s' ↔
      s' = s ∧ mode ≠ .unlock ∧ ¬(off + len > Files.wholeEnd ∨ len = 0) ∧
        ∃ id node, s.fileNode file (Files.rangeAccess mode) = .ok id ∧ s.nodes[id]? = some node ∧
          Blocked (rangeLock file off len mode) node.locks.data := by
  rcases exec_lockRange env file off len mode s with
    ⟨fault, hfault, hrun⟩ | ⟨id, hid, ⟨hrange, hrun⟩ | ⟨hrange, hrun⟩⟩
  · rw [hrun]
    refine ⟨fun h ↦ ?_, ?_⟩
    · cases h
      exact absurd rfl ((fileNode_found file _).of_error hfault)
    · rintro ⟨_, _, _, id, _, hid, _⟩
      rw [hfault] at hid
      cases hid
  · rw [hrun]
    exact ⟨(fun h ↦ nomatch h), fun h ↦ absurd hrange h.2.2.1⟩
  · obtain ⟨granted, hhandle⟩ := (fileNode_found file _).of_ok hid
    obtain ⟨node, c, hnode, _⟩ := exists_content hready.sound hhandle
    rcases Files.relock_cases env.lock mode (rangeLock file off len mode) hnode with
      ⟨hrelock, hmode, hway⟩ | ⟨hfree, hrelock⟩
    · rw [show exec env (.lockRange file off len mode) s = _ from map_of_error (hrun.trans hrelock)]
      refine ⟨fun h ↦ ?_, ?_⟩
      · cases h
        exact ⟨rfl, hmode, hrange, id, node, hid, hnode, hway⟩
      · rintro ⟨rfl, _⟩
        rfl
    · -- Without an owner in the way the call runs out of memory or succeeds.
      refine ⟨fun h ↦ ?_, ?_⟩
      · rcases hrelock with hrelock | ⟨locks, hrelock, _⟩
        · rw [show exec env (.lockRange file off len mode) s =
            _ from map_of_error (hrun.trans hrelock)] at h
          cases h
        · rw [show exec env (.lockRange file off len mode) s = _ from map_of_ok (hrun.trans hrelock)] at h
          cases h
      · rintro ⟨_, hmode, _, j, x, hj, hx, hway⟩
        rw [hid] at hj
        cases hj
        rw [hnode] at hx
        cases hx
        exact absurd ⟨hmode, hway⟩ hfree

/-- In every reachable state the locks of a file are a function from kind, owner and byte, exclusive
bytes have one owner, and every owner is an open handle of the file. A lock on a range that succeeds
makes the bytes asked for what was asked for and changes nothing else. It is refused as blocked
exactly where it asks for a lock, its handle and its range are valid, and another handle holds one
of the bytes while one of the two locks is exclusive; nothing changes then. The loop that splits
locks ends, and the two places reserved for it and the new lock are enough. -/
theorem locks_of_reachable (hreach : system.Reachable s) :
    (∀ (id : ℕ) (node : Node), s.nodes[id]? = some node →
      (∀ held ∈ node.locks.data, held.start < held.stop ∧ ∃ access, s.handles[held.owner]? =
        some (.file id access)) ∧
      node.locks.data.Pairwise Lock.Apart ∧
      (∀ whole owner byte exclusive, holds node.locks.data whole owner byte = some exclusive ↔
        ∃ held ∈ node.locks.data, held.Covers whole owner byte ∧ held.exclusive = exclusive) ∧
      (∀ whole owner other byte, owner ≠ other → holds node.locks.data whole owner byte = some true →
        holds node.locks.data whole other byte = none) ∧
      ∀ (file : ℕ) (locks reserved : Vec Lock) (wanted : Lock) (grant : Option ℕ),
        ReflTransGen (LockStep file) node.locks.data locks.data → wanted.Proper →
        locks.tryReserve 2 grant = some reserved →
        ∃ result, carve wanted (3 * reserved.length + 1) 0 reserved.data = .ok result ∧
          carvePeak wanted (3 * reserved.length + 1) 0 reserved.data ≤ reserved.capacity ∧
          result.length + 1 ≤ reserved.capacity) ∧
    ∀ (env : Env) (file off len : ℕ) (mode : Files.LockMode),
      (∀ reply s', exec env (.lockRange file off len mode) s = .ok reply s' →
        ∃ id node locks, s.fileNode file (Files.rangeAccess mode) = .ok id ∧ s.nodes[id]? = some node ∧
          s' = s.modifyNode id (Node.withLocks locks) ∧
          ∀ whole owner byte, holds locks.data whole owner byte =
            if whole = false ∧ owner = file ∧ off ≤ byte ∧ byte < off + len then
              (if mode = .unlock then none else some (decide (mode = .exclusive)))
            else holds node.locks.data whole owner byte) ∧
      ∀ s', exec env (.lockRange file off len mode) s = .error Error.wouldBlock s' ↔
        s' = s ∧ mode ≠ .unlock ∧ 0 < len ∧ off + len ≤ Files.wholeEnd ∧
          ∃ id node, s.fileNode file (Files.rangeAccess mode) = .ok id ∧ s.nodes[id]? = some node ∧
            ∃ other byte exclusive, other ≠ file ∧ off ≤ byte ∧ byte < off + len ∧
              holds node.locks.data false other byte = some exclusive ∧
                (exclusive = true ∨ mode = .exclusive) := by
  have hheld := held_of_reachable hreach
  have hready := (steady_of_reachable hreach).ready
  refine ⟨fun id node hnode ↦ ?_, fun env file off len mode ↦ ⟨fun reply s' hok ↦ ?_, fun s' ↦ ?_⟩⟩
  · have htable := hheld.table id node hnode
    refine ⟨fun held hmem ↦
      ⟨(htable.proper held hmem).nonempty, hheld.owner id node hnode held hmem⟩, htable.apart,
      fun _ _ _ _ ↦ htable.holds_eq_some_iff, fun _ _ _ _ hne ↦ htable.alone hne, ?_⟩
    intro file locks reserved wanted grant hsteps hwanted hreserve
    exact (htable.steps hsteps).carve_reserved hwanted hreserve
  · obtain ⟨id, node, locks, hid, hnode, rfl, hproper, hfree, hperm⟩ := lockRange_eq_ok hready hok
    refine ⟨id, node, locks, hid, hnode, rfl, fun whole owner byte ↦ ?_⟩
    rw [(hheld.table id node hnode).holds_relocked hproper hfree hperm]
    simp only [Lock.Covers, rangeLock, eq_comm]
  · rw [lockRange_blocked_iff hready]
    refine and_congr_right fun _ ↦ and_congr_right fun _ ↦ ?_
    constructor
    · rintro ⟨hrange, id, node, hid, hnode, hblocked⟩
      rw [(hheld.table id node hnode).blocked_iff_holds (rangeLock_proper mode hrange)] at hblocked
      exact ⟨by omega, by omega, id, node, hid, hnode, by simpa [rangeLock] using hblocked⟩
    · rintro ⟨hlength, hend, id, node, hid, hnode, hother⟩
      have hrange : ¬(off + len > Files.wholeEnd ∨ len = 0) := by omega
      refine ⟨hrange, id, node, hid, hnode, ?_⟩
      rw [(hheld.table id node hnode).blocked_iff_holds (rangeLock_proper mode hrange)]
      simpa [rangeLock] using hother

/-- A file that is opened twice, and the first handle's exclusive lock on its first byte. -/
def guarding : List (ℕ × Call) :=
  [(8, .openFile [47, 97] (Files.create ||| Files.write) 0o666), (16, .openFile [47, 97] Files.write 0),
    (24, .lockRange 8 0 1 .exclusive)]

def guarded : State := (granted guarding first).getD first

theorem guarded_reachable : system.Reachable guarded :=
  reachable_of_granted (.of_start rfl) (show granted guarding first = some guarded from rfl)

/-- The byte the first handle locked is not the second one's. -/
theorem locks_of_reachable_guarded : system.Reachable guarded ∧ ∃ node, guarded.nodes[2]? = some node ∧
    holds node.locks.data false 8 0 = some true ∧ holds node.locks.data false 16 0 = none := by
  obtain ⟨-, -, -, halone, -⟩ := (locks_of_reachable guarded_reachable).1 2 _ rfl
  exact ⟨guarded_reachable, _, rfl, rfl, halone false 8 16 0 (by decide) rfl⟩

/-- Unlocking is not in the way of anybody: the second handle unlocks a byte that the first one
holds for itself. -/
theorem unlock_over_exclusive : system.Reachable guarded ∧
    (∃ node, guarded.nodes[2]? = some node ∧ holds node.locks.data false 8 0 = some true) ∧
    ∃ s', exec (granting 24) (.lockRange 16 0 1 .unlock) guarded = .ok .done s' :=
  ⟨guarded_reachable, ⟨_, rfl, rfl⟩, _, rfl⟩

end State

end DotnetPal.Memfs
