import DotnetPal.Memfs.Lookup

/-!
# Walks end

A walk ends with a place or a refusal, and in a sound state the place is what it says. Each
step takes a byte off the texts that are left, and a link that is entered adds no more than all
link targets together. The two loops that climb towards the root take one step for each
directory above theirs.
-/

open Std

namespace DotnetPal.Memfs

open Programs Hierarchy DirectoryTree

attribute [local instance] lexOrd

theorem Core.Sound.root_directory {core : Core} (h : core.Sound none) : (core.parent? root).isSome := by
  rw [Core.parent?, h.tree.root_parent]
  rfl

/-! ## What a walk has left -/

/-- The bytes of all link targets. -/
def State.targets (s : State) : ℕ :=
  OrderedMap.total (fun _ node ↦ match node.body with
    | .link target => target.length
    | _ => 0) s.nodes

theorem State.walkBound_eq (s : State) (path : Bytes) :
    s.walkBound path = path.length + maxLinks * s.targets + 1 := rfl

/-- The bytes a walk may still take off its texts, when the targets hold so many. -/
def Pending.left (targets : ℕ) (pending : Pending) : ℕ :=
  (pending.texts.map List.length).sum + (maxLinks - pending.entered) * targets

/-- No more texts than links entered and the path itself. -/
def Pending.Bounded (pending : Pending) : Prop :=
  pending.texts.length ≤ pending.entered + 1 ∧ pending.entered ≤ maxLinks

/-- What holds on the way of a walk. -/
structure Walking.Sound (s : State) (last : Last) (walking : Walking) : Prop where
  parent_directory : (s.core.parent? walking.parent).isSome
  found_entry : ∀ name node, walking.found = some (name, node) →
    ValidName name ∧ node = s.core.child? walking.parent name
  found_followed : ∀ name node, walking.found = some (name, node) → last = .follow →
    s.linkTarget node = none
  bounded : walking.pending.Bounded

/-- A place is what it says. -/
structure Place.Sound (s : State) (last : Last) (place : Place) : Prop where
  parent_directory : (s.core.parent? place.parent).isSome
  entry : (place.name = [] ∧ place.node = some place.parent) ∨
    (ValidName place.name ∧ place.node = s.core.child? place.parent place.name)
  followed : last = .follow → s.linkTarget place.node = none
  slash_directory : place.slash = true → last ≠ .create → ∀ id, place.node = some id →
    (s.core.parent? id).isSome

namespace State

variable {s : State} {last : Last}

theorem linkTarget_eq_some {id : Option ℕ} {t : Bytes} (h : s.linkTarget id = some t) :
    ∃ key node, id = some key ∧ s.nodes[key]? = some node ∧ node.body = .link t := by
  unfold linkTarget at h
  split at h
  · rename_i node hnode
    split at h
    · rename_i x hbody
      rw [Option.some.injEq] at h
      subst h
      obtain ⟨key, rfl, hkey⟩ := Option.bind_eq_some_iff.mp hnode
      exact ⟨key, node, rfl, hkey, hbody⟩
    · cases h
  · cases h

theorem linkTarget_of_directory {id : ℕ} (h : (s.core.parent? id).isSome) :
    s.linkTarget (some id) = none := by
  rw [Option.eq_none_iff_forall_ne_some]
  intro t htarget
  obtain ⟨key, node, hkey, hnode, hbody⟩ := linkTarget_eq_some htarget
  rw [Option.some.injEq] at hkey
  subst hkey
  simp [parent?_core, hnode, hbody, Body.directory?] at h

/-- No target is longer than all of them. -/
theorem linkTarget_length_le {id : Option ℕ} {t : Bytes} (h : s.linkTarget id = some t) :
    t.length ≤ s.targets := by
  obtain ⟨key, node, _, hnode, hbody⟩ := linkTarget_eq_some h
  unfold targets
  refine Nat.le_trans ?_ (OrderedMap.weight_le_total _ s.nodes hnode)
  rw [hbody]

/-! ## One step -/

variable {pending : Pending}

/-- Entering a link is no panic, and uses up one of the links a walk may follow. -/
theorem enter_yields (hbounded : pending.Bounded) (t : Bytes) :
    (pending.enter t).Yields fun entered ↦ entered.Bounded ∧
      ∀ targets, t.length ≤ targets → entered.left targets ≤ pending.left targets := by
  obtain ⟨hdepth, hentered⟩ := hbounded
  unfold Pending.enter
  by_cases hfull : pending.entered = maxLinks
  · rw [if_pos hfull]
    exact .refused
  · rw [if_neg hfull, if_neg (by omega)]
    refine .ok ⟨⟨by simpa using hdepth, by dsimp only; omega⟩, fun targets hle ↦ ?_⟩
    have hone : maxLinks - pending.entered = maxLinks - (pending.entered + 1) + 1 := by omega
    simp only [Pending.left, List.map_cons, List.sum_cons, hone, Nat.add_mul, Nat.one_mul]
    omega

/-- What a component does: a link that is entered adds no more than all targets hold, and in a sound
state what is found is there. -/
def Stepped (s : State) (last : Last) (pending : Pending) (next : Walking) : Prop :=
  next.pending.Bounded ∧ next.pending.left s.targets ≤ pending.left s.targets ∧
    (s.core.Sound none → next.Sound s last)

/-- A component without a name in a directory. -/
theorem stepped_into (hbounded : pending.Bounded) {dir : ℕ}
    (h : s.core.Sound none → (s.core.parent? dir).isSome) :
    s.Stepped last pending ⟨dir, none, pending⟩ :=
  ⟨hbounded, Nat.le_refl _, fun hsound ↦ ⟨h hsound, by simp, by simp, hbounded⟩⟩

theorem named_yields (hbounded : pending.Bounded) (parent : ℕ) {name : Bytes}
    (hname : ValidName name) : (s.named last parent name pending).Yields (s.Stepped last pending) := by
  refine (entries_yields parent).bind fun entries ⟨hparent, he⟩ ↦ ?_
  -- What is found is the entry of that name, wherever no link is entered.
  have hx : (last = .follow → s.linkTarget entries[name]? = none) →
      s.Stepped last pending ⟨parent, some (name, entries[name]?), pending⟩ := by
    intro hfollow
    refine ⟨hbounded, Nat.le_refl _, fun _ ↦ ⟨hparent, ?_, ?_, hbounded⟩⟩
    · rintro _ _ ⟨⟩
      exact ⟨hname, (he name).symm⟩
    · rintro _ _ ⟨⟩
      exact hfollow
  dsimp only
  split
  · rename_i t htarget
    split
    · refine (enter_yields hbounded t).bind fun entered ⟨hdone, hleft⟩ ↦ .ok ?_
      refine ⟨hdone, hleft _ (linkTarget_length_le htarget), fun hsound ↦ ⟨?_, by simp, by simp, hdone⟩⟩
      dsimp only
      split
      · exact hsound.root_directory
      · exact hparent
    · rename_i hfollows
      refine .ok (hx ?_)
      rintro rfl
      simp [Pending.follows] at hfollows
  · rename_i htarget
    exact .ok (hx fun _ ↦ htarget)

theorem component_yields (hbounded : pending.Bounded) (parent : ℕ) {name : Bytes} (hne : name ≠ [])
    (hslash : slash ∉ name) :
    (s.component last parent name pending).Yields (s.Stepped last pending) := by
  unfold component
  split
  · exact (entries_yields parent).bind fun _ hentries ↦ .ok (stepped_into hbounded fun _ ↦ hentries.1)
  · rename_i hdot
    split
    · refine (parent_yields parent).bind fun above habove ↦ .ok (stepped_into hbounded fun hsound ↦ ?_)
      exact hsound.tree.parent_directory habove
    · rename_i hdotDot
      split
      · exact .refused
      · rename_i hlen
        exact named_yields hbounded parent ⟨hne, Nat.le_of_not_lt hlen, hslash, hdot, hdotDot⟩

theorem into_yields (walking : Walking) : (into walking).Yields fun _ ↦ True := by
  unfold into
  split
  · exact .ok trivial
  · exact (Result.required_yields _ _).imp fun _ _ ↦ trivial

theorem arrive_yields (walking : Walking) (seen : Bool) :
    (s.arrive last walking seen).Yields fun p ↦ walking.Sound s last → p.Sound s last := by
  unfold arrive
  split
  · rename_i name node hx
    split
    · refine (isDirectory_yields node).bind fun dir ⟨_, _, hsome⟩ ↦ ?_
      split
      · rename_i htrue
        refine .ok fun hwalking ↦ ⟨hwalking.parent_directory, .inr (hwalking.found_entry _ _ hx),
          hwalking.found_followed _ _ hx, ?_⟩
        rintro - - _ ⟨⟩
        rw [← hsome]
        exact htrue
      · exact .refused
    · rename_i hslash
      refine .ok fun hwalking ↦ ⟨hwalking.parent_directory, .inr (hwalking.found_entry _ _ hx),
        hwalking.found_followed _ _ hx, ?_⟩
      intro (hseen : seen = true) hlast
      simp [hseen, hlast] at hslash
  · rename_i name hx
    exact .ok fun hwalking ↦ ⟨hwalking.parent_directory, .inr (hwalking.found_entry _ _ hx),
      hwalking.found_followed _ _ hx, by simp⟩
  · refine .ok fun hwalking ↦ ?_
    have hparent := hwalking.parent_directory
    refine ⟨hparent, .inl ⟨rfl, rfl⟩, fun _ ↦ linkTarget_of_directory hparent, ?_⟩
    rintro - - _ ⟨⟩
    exact hparent

/-! ## Whole walks -/

theorem walkStep_yields {walking : Walking} (hbounded : walking.pending.Bounded) :
    (s.walkStep last walking).Yields (Sum.elim
      (fun next ↦ next.pending.Bounded ∧ next.pending.left s.targets < walking.pending.left s.targets ∧
        (s.core.Sound none → next.Sound s last))
      fun p ↦ walking.Sound s last → p.Sound s last) := by
  obtain ⟨parent, x, texts, entered, seen⟩ := walking
  simp only [walkStep, Pending.next]
  rcases hnext : Pending.nextOf texts seen with ⟨_ | name, rest, new⟩
  · exact (arrive_yields _ _).map
  · obtain ⟨hne, hslash, hshorter, hless⟩ := Pending.nextOf_some hnext
    have hrest : Pending.Bounded ⟨rest, entered, new⟩ := ⟨hshorter.trans hbounded.1, hbounded.2⟩
    refine (into_yields _).bind fun dir _ ↦ .map ?_
    refine (component_yields hrest dir hne hslash).imp fun next ⟨hdone, hleft, hnext⟩ ↦ ?_
    refine ⟨hdone, Nat.lt_of_le_of_lt hleft ?_, hnext⟩
    simp only [Pending.left]
    omega

theorem walkOn_yields (fuel : ℕ) (walking : Walking) (hbounded : walking.pending.Bounded)
    (hfuel : walking.pending.left s.targets < fuel) :
    (s.walkOn last fuel walking).Yields fun p ↦
      s.core.Sound none → walking.Sound s last → p.Sound s last := by
  -- The texts left shrink with every component, so the bound outlives them.
  induction fuel generalizing walking with
  | zero => omega
  | succ fuel ih =>
    refine (walkStep_yields hbounded).bind fun moved hmoved ↦ ?_
    cases moved with
    | inl next =>
      obtain ⟨hdone, hleft, hnext⟩ := hmoved
      exact (ih next hdone (by omega)).imp fun p hp hsound _ ↦ hp hsound (hnext hsound)
    | inr p => exact .ok fun _ ↦ hmoved

theorem workingDirectory_yields :
    s.workingDirectory.Yields fun working ↦ s.core.Sound none → (s.core.parent? working).isSome := by
  unfold workingDirectory
  split
  · rename_i hlive
    obtain ⟨node, hnode⟩ := Option.isSome_iff_exists.mp (ExtTreeMap.mem_iff_isSome_getElem?.mp hlive)
    refine .ok fun hsound ↦ hsound.working_directory node.kept.shape ?_
    change s.core.shapes[s.working]? = _
    rw [Core.get_shapes, get_core, hnode]
    rfl
  · exact .refused

theorem walkStart_yields (path : Bytes) :
    (s.walkStart path).Yields fun start ↦ s.core.Sound none → (s.core.parent? start).isSome := by
  unfold walkStart
  split
  · exact .ok Core.Sound.root_directory
  · exact workingDirectory_yields

theorem start_bounded (path : Bytes) : Pending.Bounded ⟨[path], 0, false⟩ := by
  simp [Pending.Bounded]

theorem start_left (path : Bytes) : Pending.left s.targets ⟨[path], 0, false⟩ < s.walkBound path := by
  rw [walkBound_eq]
  simp [Pending.left]

/-- A walk ends in every state, and has room for every link it enters. -/
theorem walk_yields (path : Bytes) (last : Last) :
    (s.walk path last).Yields fun p ↦ s.core.Sound none → p.Sound s last := by
  refine (walkStart_yields path).bind fun start hstart ↦ ?_
  refine (walkOn_yields _ _ (start_bounded path) (start_left path)).imp fun p hp hsound ↦ ?_
  exact hp hsound ⟨hstart hsound, by simp, by simp, start_bounded path⟩

variable (hsound : s.core.Sound none)
include hsound

theorem walk_sound {path : Bytes} {p : Place} (h : s.walk path last = .ok p) : p.Sound s last :=
  (walk_yields path last).of_ok h hsound

/-! ## Climbs -/

/-- The bound of the climbing loops is more than the number of directories above any directory. -/
theorem climbsIn_lt_climbBound {id n : ℕ}
    (h : ClimbsIn s.core.parent? root n id) (hid : (s.core.parent? id).isSome) :
    n < s.climbBound := by
  have hmem : ∀ j, (s.core.parent? j).isSome → j ∈ s.nodes.keys := by
    intro j hj
    obtain ⟨node, hnode⟩ := exists_node_of_parent? hj
    rw [ExtTreeMap.mem_keys, ExtTreeMap.mem_iff_isSome_getElem?, hnode]
    rfl
  have hlt : n < s.nodes.keys.length := h.lt_length (hmem id hid) fun lower above _ habove ↦
    hmem above (hsound.tree.parent_directory habove)
  rw [ExtTreeMap.length_keys] at hlt
  exact Nat.lt_succ_of_lt hlt

theorem exists_climb {id : ℕ} (hid : (s.core.parent? id).isSome) :
    ∃ n, ClimbsIn s.core.parent? root n id ∧ n < s.climbBound := by
  obtain ⟨n, hn⟩ := (hsound.tree.climbs id hid).exists_count
  exact ⟨n, hn, climbsIn_lt_climbBound hsound hn hid⟩

omit hsound in
/-- The way up from a directory avoids a node, or the move is refused. -/
theorem refuseInside_cases {node n fuel ancestor : ℕ} (h : ClimbsIn s.core.parent? root n ancestor)
    (hfuel : n < fuel) :
    s.refuseInside node fuel ancestor = .ok () ∧ Avoids s.core.parent? root node ancestor ∨
      s.refuseInside node fuel ancestor = .error Error.invalidArgument := by
  induction h generalizing fuel with
  | root =>
    obtain ⟨rest, rfl⟩ := Nat.exists_eq_add_of_lt hfuel
    simp only [refuseInside, if_true]
    exact .inl ⟨rfl, .root⟩
  | @step lower above n hroot hparent _ ih =>
    obtain ⟨rest, rfl⟩ := Nat.exists_eq_add_of_lt hfuel
    have hok := parent_eq_ok_iff.mpr hparent
    simp only [refuseInside, if_neg hroot]
    split
    · exact .inr rfl
    · rename_i hnode
      rw [hok]
      rcases @ih (n + 1 + rest) (by omega) with ⟨hrest, havoids⟩ | hrest
      · exact .inl ⟨hrest, .step hroot hnode hparent havoids⟩
      · exact .inr hrest

omit hsound in
theorem climbOn_yields {n fuel dir : ℕ} (h : ClimbsIn s.core.parent? root n dir) (hfuel : n < fuel) :
    (s.climbOn fuel dir).Yields fun _ ↦ True := by
  induction h generalizing fuel with
  | root =>
    obtain ⟨rest, rfl⟩ := Nat.exists_eq_add_of_lt hfuel
    simp only [climbOn, if_true]
    exact .ok trivial
  | @step lower above n hroot hparent _ ih =>
    obtain ⟨rest, rfl⟩ := Nat.exists_eq_add_of_lt hfuel
    simp only [climbOn, if_neg hroot, parent_eq_ok_iff.mpr hparent]
    refine (entries_yields above).bind fun _ _ ↦ (Result.required_yields _ _).bind fun _ _ ↦ ?_
    exact (ih (by omega)).bind fun _ _ ↦ .ok trivial

theorem spell_yields {dir : ℕ} (name : Bytes) (cap : ℕ)
    (h : (s.core.parent? dir).isSome) : (s.spell dir name cap).Yields fun _ ↦ True := by
  obtain ⟨n, hn, hlt⟩ := exists_climb hsound h
  refine Yields.bind ((climbOn_yields hn hlt).bind fun _ _ ↦ .ok trivial) fun parts (_ : True) ↦ ?_
  dsimp only
  split
  · exact .refused
  · split <;> exact .ok trivial

end State

/-- Where something may be created: in a directory, under a valid name that is free. -/
structure Place.Free (s : State) (place : Place) : Prop where
  parent_directory : (s.core.parent? place.parent).isSome
  name_valid : ValidName place.name
  entry_free : s.core.child? place.parent place.name = none

theorem Place.Sound.free {s : State} {last : Last} {p : Place} (h : p.Sound s last)
    (hnode : p.node = none) : p.Free s := by
  rcases h.entry with ⟨_, hself⟩ | ⟨hvalid, he⟩
  · rw [hnode] at hself
    cases hself
  · exact ⟨h.parent_directory, hvalid, by rw [← he, hnode]⟩

theorem State.vacant_yields {s : State} (hsound : s.core.Sound none) (path : Bytes) :
    (s.vacant path).Yields (Place.Free s) := by
  refine (walk_yields path .create).bind fun p hp ↦ ?_
  split
  · exact .refused
  · rename_i hnode
    split
    · exact .refused
    · exact .ok ((hp hsound).free (by simpa using hnode))

end DotnetPal.Memfs
