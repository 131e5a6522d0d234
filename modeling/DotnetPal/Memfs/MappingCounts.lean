import DotnetPal.Memfs.Contents

/-!
# How often a range is mapped

The provider counts the mappings of a range of memory: `State.live` is how often one was handed out
and not unmapped. A map adds one to the range it answers with, an unmap takes one from its range,
and no other call changes any count. New memory is where no mapping is.
-/

open Std

namespace DotnetPal.Memfs

open Programs

attribute [local instance] lexOrd

/-- How often a range is handed out. -/
def Mapped.count : Mapped → ℕ
  | .shared _ count => count
  | .privateCopy _ => 1

/-- The calls that map and unmap. -/
def Call.Maps : Call → Prop
  | .map .. | .unmap .. => True
  | _ => False

namespace State

/-- How often the range at an address, of a length, is mapped. -/
def live (s : State) (key : ℕ × ℕ) : ℕ := (s.mappings[key]?.map Mapped.count).getD 0

variable {env : Env} {s s' : State} {call : Call} {reply : Reply} {key : ℕ × ℕ}

theorem live_of_some {mapped : Mapped} (h : s.mappings[key]? = some mapped) :
    s.live key = mapped.count := by
  simp [live, h]

theorem live_of_none (h : s.mappings[key]? = none) : s.live key = 0 := by
  simp [live, h]

theorem live_congr (h : s'.mappings = s.mappings) : s'.live = s.live := by
  funext key
  simp [live, h]

theorem live_put (key j : ℕ × ℕ) (mapped : Mapped) :
    (Mappings.Record.put key mapped s).live j = if key = j then mapped.count else s.live j := by
  simp only [live, Mappings.Record.put, OrderedMap.get_insert]
  split <;> rfl

theorem live_drop (key j : ℕ × ℕ) :
    (Mappings.Record.drop key s).live j = if key = j then 0 else s.live j := by
  simp only [live, Mappings.Record.drop, OrderedMap.get_erase]
  split <;> rfl

/-- What is recorded is mapped. -/
theorem Steady.live_pos_iff (h : s.Steady) : 0 < s.live key ↔ (s.mappings[key]?).isSome := by
  cases hmapping : s.mappings[key]? with
  | none => simp [live_of_none hmapping]
  | some mapped =>
    cases mapped with
    | shared id n =>
      simpa [live_of_some hmapping, Mapped.count] using (h.sound.life.mapping_file key id n hmapping).1
    | privateCopy memory => simp [live_of_some hmapping, Mapped.count]

/-- A mapping has a length. -/
theorem Steady.length_pos (h : s.Steady) {addr len : ℕ} (hlive : 0 < s.live (addr, len)) : 0 < len := by
  obtain ⟨mapped, hmapping⟩ := Option.isSome_iff_exists.mp (h.live_pos_iff.mp hlive)
  cases mapped with
  | shared id n =>
    obtain ⟨_, _, _, _, _, hpos⟩ := h.sound.memory.shared_inside _ _ _ _ hmapping
    exact hpos
  | privateCopy memory => exact (h.sound.memory.copies _ _ _ hmapping).1

/-! ## Calls that map nothing -/

theorem mappings_opening {flags mode : UInt32} {id : ℕ} {middle : State}
    (hopening : Opening env s flags mode id middle) : middle.mappings = s.mappings := by
  cases hopening with
  | found _ _ => rfl
  | truncated _ _ _ _ => exact (mappings_changed ..).1
  | created _ => rfl

theorem live_of_deed (hdeed : Deed env s call reply s') (hcall : ¬call.Maps) : s'.live = s.live := by
  cases hdeed with
  | quiet _ => rfl
  | @openFile _ _ _ _ middle hopening =>
    have hmiddle : middle.mappings = s.mappings := mappings_opening hopening
    exact live_congr hmiddle
  | close _ => exact live_congr ((Frame.refl _).reaped _).mappings
  | readAt _ _ => exact live_congr (Frame.read ..).mappings
  | writeAt _ _ _ _ | setSize _ _ _ _ => exact live_congr (mappings_changed ..).1
  | remove _ _ _ _ => exact live_congr (Frame.removed ..).mappings
  | rename _ => exact live_congr (Frame.renamed ..).mappings
  | create | link | openDirectory | readDirectory | closeDirectory | attributes | work | locks
    | openWatcher | closeWatcher
  | addWatch | removeWatch | look | setCapacity | storeShared => exact live_congr rfl
  | mapShared | mapPrivate | unmapShared | unmapPrivate => exact (hcall trivial).elim
  | storePrivate hmapping =>
    funext j
    rw [live_put]
    split
    · next heq => rw [← heq, live_of_some hmapping, Mapped.count, Mapped.count]
    · rfl

/-- A call that maps nothing leaves all counts, also where it refuses. -/
theorem Steady.live_after (h : s.Steady) (honest : env.Honest s) (htrusted : call.Trusted s)
    (hcall : ¬call.Maps) : (after (exec env call) s).live = s.live := by
  refine h.after_of_deed honest htrusted (live_of_deed · hcall) rfl fun hgave ↦ ?_
  obtain ⟨id, granted, node, locks, lockMode, _, _, rfl, _⟩ := hgave.given
  rfl

/-! ## Mapping and unmapping -/

/-- New memory is where no mapping is. -/
theorem Steady.unmapped_of_pages (h : s.Steady) (honest : env.Honest s) {size base offset : ℕ}
    (hpages : env.pages size = some base) (hoffset : offset < size) (len : ℕ) :
    s.live (base + offset, len) = 0 := by
  cases hmapping : s.mappings[(base + offset, len)]? with
  | none => exact live_of_none hmapping
  | some mapped =>
    cases mapped with
    | shared id n =>
      obtain ⟨start, cap, hblock, hle, hend, hpos⟩ := h.sound.memory.shared_inside _ _ _ _ hmapping
      rw [Mappings.block_core] at hblock
      have hapart := honest.pages_apart size base hpages _ _ hblock
      simp only [Apart] at hapart
      omega
    | privateCopy memory =>
      obtain ⟨hpos, _⟩ := h.sound.memory.copies _ _ _ hmapping
      have hblock : s.block (.copy (base + offset, len)) =
        some (base + offset, nextMultipleOfPage len) := by
        simp [block, hmapping]
      have hapart := honest.pages_apart size base hpages _ _ hblock
      have hlen := le_nextMultipleOfPage len
      simp only [Apart] at hapart
      omega

/-- The ranges mapped at an address all have one length. -/
def Uniform (s : State) : Prop :=
  ∀ addr first second, 0 < s.live (addr, first) → 0 < s.live (addr, second) → first = second

/-- No live mapping begins where this page of the file is and has another length. -/
def Fitting (s : State) (file offset length : ℕ) : Prop :=
  ∀ (id : ℕ) (access : UInt32) (pages : Pinned) (other : ℕ), s.handles[file]? = some (.file id access) →
    s.core.content? id = some (.pinned pages) → 0 < s.live (pages.base + offset, other) → other = length

variable (h : s.Steady)
include h

/-- A map adds one mapping of the range it answers with. Where the range begins nothing was mapped,
or it is the place of the file's own pages. -/
theorem Steady.deed_map (honest : env.Honest s) {file offset len : ℕ} {access : UInt32} {shared : Bool}
    (hdeed : Deed env s (.map file offset len access shared) reply s') :
    ∃ addr, reply = .mapped addr ∧ (∀ j, s'.live j = s.live j + if (addr, len) = j then 1 else 0) ∧
      ((∀ j, s.live (addr, j) = 0) ∨ ∃ (id : ℕ) (granted : UInt32) (pages : Pinned),
        shared = true ∧ s.handles[file]? = some (.file id granted) ∧ s.core.content? id =
          some (.pinned pages) ∧
          addr = pages.base + offset) := by
  cases hdeed with
  | quiet hhas => exact hhas.elim
  | remove hhas | create hhas | attributes hhas | locks hhas => exact hhas.elim
  | @mapShared _ _ _ _ id granted c n pages hhandle hc hlen hinside hpinned hvalid hfits hn =>
    refine ⟨pages.base + offset, rfl, fun j ↦ ?_, ?_⟩
    · have hput : s.live (pages.base + offset, len) = n := by
        rcases hn with ⟨hnone, rfl⟩ | hsome
        · exact live_of_none hnone
        · exact live_of_some hsome
      change (Mappings.Record.put (pages.base + offset, len) (.shared id (n + 1)) s).live j = _
      rw [live_put]
      split
      · next heq => rw [← heq, hput, Mapped.count]
      · rfl
    · rcases hpinned with rfl | ⟨_, hpages, hcapacity, _, _⟩
      · exact .inr ⟨id, granted, pages, rfl, hhandle, hc, rfl⟩
      · exact .inl (h.unmapped_of_pages honest hpages (by omega))
  | @mapPrivate _ _ _ _ id granted c base hhandle hc hlen hinside hpages =>
    have hsize := le_nextMultipleOfPage len
    have hfree : ∀ j, s.live (base, j) = 0 := h.unmapped_of_pages honest hpages (show 0 < _ by omega)
    refine ⟨base, rfl, fun j ↦ ?_, .inl hfree⟩
    rw [live_put]
    split
    · next heq => rw [← heq, hfree, Mapped.count]
    · rfl

theorem Steady.uniform_map (honest : env.Honest s) (huniform : s.Uniform)
    {file offset len : ℕ} {access : UInt32} {shared : Bool}
    (hfitting : shared = true → s.Fitting file offset len)
    (hdeed : Deed env s (.map file offset len access shared) reply s') : s'.Uniform := by
  obtain ⟨addr, _, hlive, hp⟩ := h.deed_map honest hdeed
  -- Whatever was mapped where the new range begins has its length.
  have hold : ∀ j, 0 < s.live (addr, j) → j = len := by
    intro j hj
    rcases hp with hfree | ⟨id, granted, pages, hshared, hhandle, hc, rfl⟩
    · simp [hfree] at hj
    · exact hfitting hshared id granted pages j hhandle hc hj
  have hnew : ∀ j, 0 < s'.live (addr, j) → j = len := by
    intro j hj
    rw [hlive] at hj
    by_cases heq : (addr, len) = (addr, j)
    · exact (Prod.mk.inj heq).2.symm
    · rw [if_neg heq] at hj
      exact hold j hj
  intro p a b ha hb
  by_cases hp : addr = p
  · subst hp
    rw [hnew a ha, hnew b hb]
  · have hsame : ∀ j, s'.live (p, j) = s.live (p, j) := by
      intro j
      rw [hlive, if_neg fun heq ↦ hp (Prod.mk.inj heq).1, Nat.add_zero]
    rw [hsame] at ha hb
    exact huniform p a b ha hb

/-- An unmap of a live range succeeds and takes one mapping of it. -/
theorem Steady.exec_unmap {addr len : ℕ} (hlive : 0 < s.live (addr, len)) :
    ∃ s', exec env (.unmap addr len) s = .ok .done s' ∧
      ∀ j, s'.live j + (if (addr, len) = j then 1 else 0) = s.live j := by
  obtain ⟨mapped, hmapping⟩ := Option.isSome_iff_exists.mp (h.live_pos_iff.mp hlive)
  have hread : (reading fun s ↦ Result.required s.mappings[(addr, len)]? .invalidArgument : Op Mapped) s =
      .ok mapped s := reading_of_ok (Result.required_eq_ok_iff.mpr hmapping)
  cases mapped with
  | shared id n =>
    have hpos := (h.sound.life.mapping_file _ _ _ hmapping).1
    have hrun : Mappings.unmap addr len s = .ok () _ :=
      (bind_of_ok hread).trans (Mappings.unmapShared_eq h.ready hmapping)
    refine ⟨_, show EStateM.map _ _ _ = _ by rw [EStateM.map, hrun], fun j ↦ ?_⟩
    rw [live_congr ((Frame.refl _).reaped id).mappings]
    have hn := live_of_some hmapping
    by_cases hlast : n - 1 = 0
    · rw [if_pos hlast]
      change (Mappings.Record.drop (addr, len) s).live j + _ = _
      rw [live_drop]
      by_cases heq : (addr, len) = j
      · simp only [if_pos heq]
        rw [← heq, hn, Mapped.count]
        omega
      · simp only [if_neg heq, Nat.add_zero]
    · rw [if_neg hlast]
      change (Mappings.Record.put (addr, len) (.shared id (n - 1)) s).live j + _ = _
      rw [live_put]
      by_cases heq : (addr, len) = j
      · simp only [if_pos heq]
        rw [← heq, hn, Mapped.count, Mapped.count]
        omega
      · simp only [if_neg heq, Nat.add_zero]
  | privateCopy memory =>
    have hrun : Mappings.unmap addr len s = .ok () (Mappings.Record.drop (addr, len) s) :=
      (bind_of_ok hread).trans (modify_apply _ _)
    refine ⟨_, show EStateM.map _ _ _ = _ by rw [EStateM.map, hrun], fun j ↦ ?_⟩
    rw [live_drop]
    by_cases heq : (addr, len) = j
    · simp only [if_pos heq]
      rw [← heq, live_of_some hmapping, Mapped.count]
    · simp only [if_neg heq, Nat.add_zero]

theorem Steady.exec_sync {addr len : ℕ} (hlive : 0 < s.live (addr, len)) :
    exec env (.sync addr len) s = .ok .done s := by
  obtain ⟨mapped, hmapping⟩ := Option.isSome_iff_exists.mp (h.live_pos_iff.mp hlive)
  have hread : (reading fun s ↦ Result.required s.mappings[(addr, len)]? .invalidArgument : Op Mapped) s =
      .ok mapped s := reading_of_ok (Result.required_eq_ok_iff.mpr hmapping)
  have hrun : Mappings.sync addr len s = .ok () s := bind_of_ok hread
  change EStateM.map _ _ _ = _
  rw [EStateM.map, hrun]

end State

end DotnetPal.Memfs
