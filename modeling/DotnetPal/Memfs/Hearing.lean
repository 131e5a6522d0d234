import Mathlib.Data.List.Nodup
import DotnetPal.Memfs.Refinement

/-!
# What watchers hear of a change

`Watcher.Hears` relates a watcher before and after a change: the steps it took, which of its watches
are still there, and the events about names that a watch of each directory heard. It composes, so
what a call makes its watchers hear is put together from the few ways in which the code tells them.
-/

open Std List

namespace DotnetPal.Memfs

open Programs Relation

attribute [local instance] lexOrd

/-! ## News of names -/

/-- The kinds of event that tell of a change of names in a directory. -/
def nameKinds : UInt32 := Watches.create ||| Watches.delete ||| Watches.movedFrom ||| Watches.movedTo

/-- An event about a name of a directory: its kinds and the name. -/
abbrev News := List (UInt32 × Bytes)

/-- What an event tells watch `id` of a name. -/
def Offer.news (id : UInt32) (offer : Offer) : Option (UInt32 × Bytes) :=
  if offer.watch = id ∧ offer.events &&& nameKinds ≠ 0 ∧ offer.name ≠ [] then
    some (offer.events, offer.name)
  else none

/-- The events about names under one id, in order. -/
def newsOf (id : UInt32) (offers : List Offer) : News := offers.filterMap (Offer.news id)

theorem newsOf_append (id : UInt32) (a b : List Offer) :
    newsOf id (a ++ b) = newsOf id a ++ newsOf id b := filterMap_append

variable {kinds : UInt32}

/-- A mask that has the bits of another meets whatever that one meets. -/
theorem and_ne_zero_of_covers {events all bit : UInt32} (hevents : events &&& all = all)
    (hall : all &&& bit = bit) (hkinds : kinds &&& bit = bit) (hbit : bit ≠ 0) : events &&& kinds ≠ 0 := by
  intro hzero
  have hhas : events &&& bit = bit := by
    rw [← hall, ← UInt32.and_assoc, hevents]
  refine hbit ?_
  calc bit = events &&& bit := hhas.symm
    _ = events &&& (kinds &&& bit) := by rw [hkinds]
    _ = (events &&& kinds) &&& bit := (UInt32.and_assoc _ _ _).symm
    _ = 0 := by rw [hzero, UInt32.zero_and]

variable {name : Bytes}

namespace Watcher

/-- Watch `id` is of `directory` and asks for every change of its names. -/
def Follows (w : Watcher) (id : UInt32) (dir : ℕ) : Prop :=
  ∃ watch ∈ w.watches.data, watch.id = id ∧ watch.node = dir ∧ watch.events &&& nameKinds = nameKinds

/-- What a change makes of a watcher. Only watches of a node in `gone` may have ended, and `news` is
what a watch of a directory heard of its names. -/
structure Hears (gone : ℕ → Prop) (news : ℕ → News) (before after : Watcher) : Prop where
  steps : ReflTransGen Step before after
  subset : ∀ watch ∈ after.watches.data, watch ∈ before.watches.data
  keeps : ∀ watch ∈ before.watches.data, ¬gone watch.node → watch ∈ after.watches.data
  noted : before.Sound → ∀ id dir, after.Follows id dir →
    ∃ noted, after.queue.history = before.queue.history ++ noted ∧
      newsOf id (noted.map Prod.fst) = news dir

variable {gone : ℕ → Prop} {news : ℕ → News} {before after w : Watcher}

theorem Follows.mono {id : UInt32} {dir : ℕ} (h : after.Follows id dir)
    (hsubset : ∀ watch ∈ after.watches.data, watch ∈ before.watches.data) : before.Follows id dir := by
  obtain ⟨watch, hwatch, hfacts⟩ := h
  exact ⟨watch, hsubset watch hwatch, hfacts⟩

theorem Hears.refl : w.Hears gone (fun _ ↦ []) w :=
  ⟨.refl, fun _ h ↦ h, fun _ h _ ↦ h, fun _ _ _ _ ↦ ⟨[], by simp, rfl⟩⟩

theorem Hears.trans {middle : Watcher} {more : ℕ → News} (a : before.Hears gone news middle)
    (b : middle.Hears gone more after) :
    before.Hears gone (fun dir ↦ news dir ++ more dir) after where
  steps := a.steps.trans b.steps
  subset := fun watch hwatch ↦ a.subset watch (b.subset watch hwatch)
  keeps := fun watch hwatch hstays ↦ b.keeps watch (a.keeps watch hwatch hstays) hstays
  noted := by
    intro hs id dir hfollows
    obtain ⟨old, hold, holdNews⟩ := a.noted hs id dir (hfollows.mono b.subset)
    obtain ⟨new, hnew, hnewNews⟩ := b.noted (hs.steps a.steps) id dir hfollows
    refine ⟨old ++ new, ?_, ?_⟩
    · rw [hnew, hold, append_assoc]
    · rw [map_append, newsOf_append, holdNews, hnewNews]

/-- Telling events leaves the watches alone. -/
theorem Hears.tell {room : Queue → Option ℕ} {offers : List Offer}
    (hoffers : ∀ offer ∈ offers, w.Live offer.watch ∧ ¬offer.Removes ∧ offer.name.length ≤
      Files.maxEntryName)
    (hnews : w.Sound → ∀ id dir, w.Follows id dir → newsOf id offers = news dir) :
    w.Hears gone news (w.tell room offers) where
  steps := .single (.tell hoffers)
  subset := fun _ h ↦ h
  keeps := fun _ h _ ↦ h
  noted := by
    intro hs id dir hfollows
    obtain ⟨noted, hnoted, htell⟩ := w.tell_history room offers
    refine ⟨noted, htell, ?_⟩
    rw [hnoted]
    exact hnews hs id dir hfollows

/-- The watch of a node is the only one of that node. -/
theorem Sound.eq_of_node (hs : w.Sound) {a b : Watch} (ha : a ∈ w.watches.data)
    (hb : b ∈ w.watches.data) (hnode : a.node = b.node) : a = b :=
  inj_on_of_nodup_map (pairwise_map.mpr hs.nodes_distinct) ha hb hnode

theorem Sound.eq_of_id (hs : w.Sound) {a b : Watch} (ha : a ∈ w.watches.data)
    (hb : b ∈ w.watches.data) (hid : a.id = b.id) : a = b :=
  inj_on_of_nodup_map (pairwise_map.mpr hs.ids_distinct) ha hb hid

theorem asked_eq_some {node : ℕ} {watch : Watch} (h : w.asked node kinds = some watch) :
    watch ∈ w.watches.data ∧ watch.node = node ∧ watch.events &&& kinds ≠ 0 := by
  have hx := find?_some h
  exact ⟨mem_of_find?_eq_some h, by simpa using hx⟩

/-- Kinds that neither end a watch nor tell of a name, whatever they are about. -/
def Plain (kinds : UInt32) : Prop :=
  ∀ dir, (kinds ||| mark dir) &&& Watches.removed = 0 ∧ (kinds ||| mark dir) &&& nameKinds = 0

variable {nodes : ExtTreeMap ℕ Node}

/-- Every event about a node comes under the id of a live watch, with a name of an entry or none. -/
theorem mem_offers {id : ℕ} {offer : Offer} (h : offer ∈ w.offers nodes id kinds) :
    w.Live offer.watch ∧ (∃ dir, offer.events = kinds ||| mark dir) ∧
      (offer.name = [] ∨ ∃ (holder : ℕ) (node : Node) (parent : ℕ) (entries : Entries) (child : ℕ),
        nodes[holder]? = some node ∧ node.body = .directory parent entries ∧ entries[offer.name]? =
          some child) := by
  unfold offers at h
  cases hnode : nodes[id]? with
  | none => simp [hnode] at h
  | some node =>
    rw [hnode] at h
    dsimp only at h
    rcases mem_append.mp h with h | h
    · obtain ⟨watch, hwatch, h⟩ := mem_flatMap.mp h
      have hmem := (mem_filter.mp hwatch).1
      split at h
      · rename_i parent entries hentries
        obtain ⟨e, he, rfl⟩ := mem_map.mp h
        obtain ⟨hlisted, _⟩ := mem_filter.mp (mem_of_mem_take he)
        obtain ⟨holder, hholder, hbody⟩ := Option.map_eq_some_iff.mp hentries
        refine ⟨⟨watch, hmem, rfl⟩, ?_, .inr ?_⟩
        · cases node.body with
          | directory _ _ => exact ⟨true, rfl⟩
          | file _ | link _ => exact ⟨false, rfl⟩
        exact ⟨watch.node, holder, parent, entries, e.2, hholder, hbody,
          ExtTreeMap.mem_toList_iff_getElem?_eq_some.mp hlisted⟩
      · cases h
    · split at h
      · rename_i watch hasked
        rw [mem_singleton.mp h]
        refine ⟨⟨watch, (asked_eq_some hasked).1, rfl⟩, ?_, .inl rfl⟩
        cases node.body with
        | directory _ _ => exact ⟨true, rfl⟩
        | file _ | link _ => exact ⟨false, rfl⟩
      · cases h

/-- Names in the table are short. -/
def Names (nodes : ExtTreeMap ℕ Node) : Prop :=
  ∀ (id : ℕ) (node : Node) (parent : ℕ) (entries : Entries) (name : Bytes) (child : ℕ),
    nodes[id]? = some node → node.body = .directory parent entries → entries[name]? = some child →
      name.length ≤ Files.maxEntryName

theorem Hears.report (hnames : Names nodes) (hplain : Plain kinds)
    (room : Queue → Option ℕ) (id : ℕ) :
    w.Hears gone (fun _ ↦ []) (w.tell room (w.offers nodes id kinds)) := by
  refine .tell ?_ ?_
  · intro offer hoffer
    obtain ⟨hlive, ⟨dir, hevents⟩, hname⟩ := mem_offers hoffer
    refine ⟨hlive, ?_, ?_⟩
    · simp only [Offer.Removes, hevents, (hplain dir).1, ne_eq, not_true, not_false_iff]
    · rcases hname with hname | ⟨holder, node, parent, entries, child, hnode, hbody, he⟩
      · simp [hname]
      · exact hnames _ _ _ _ _ _ hnode hbody he
  · intro _ j _ _
    unfold newsOf
    rw [filterMap_eq_nil_iff]
    intro offer hoffer
    obtain ⟨_, ⟨dir, hevents⟩, _⟩ := mem_offers hoffer
    unfold Offer.news
    rw [if_neg]
    rintro ⟨_, hkinds, _⟩
    exact hkinds (by rw [hevents]; exact (hplain dir).2)

/-- Kinds that tell of a name: one of `nameKinds`, and no end of a watch. -/
def Naming (kinds : UInt32) : Prop :=
  kinds &&& Watches.removed = 0 ∧ kinds &&& nameKinds ≠ 0 ∧
    ∀ events, events &&& nameKinds = nameKinds → events &&& kinds ≠ 0

theorem Hears.entry (hnaming : Naming kinds) (hname : ValidName name)
    (room : Queue → Option ℕ) (dir : ℕ) (cookie : UInt32) :
    w.Hears gone (fun j ↦ if j = dir then [(kinds, name)] else [])
      (w.tell room (w.entryOffers dir name kinds cookie)) := by
  obtain ⟨hremoved, hkinds, hasks⟩ := hnaming
  refine .tell ?_ ?_
  · intro offer hoffer
    unfold entryOffers at hoffer
    split at hoffer
    · rename_i watch hasked
      rw [mem_singleton.mp hoffer]
      exact ⟨⟨watch, (asked_eq_some hasked).1, rfl⟩, by simp [Offer.Removes, hremoved], hname.2.1⟩
    · cases hoffer
  · rintro hs id j ⟨watch, hwatch, rfl, rfl, hevents⟩
    unfold entryOffers
    cases hasked : w.asked dir kinds with
    | none =>
      rw [if_neg]
      · rfl
      · rintro rfl
        have hnone := find?_eq_none.mp hasked watch hwatch
        simp [hasks _ hevents] at hnone
    | some x =>
      obtain ⟨hx, hnode, _⟩ := asked_eq_some hasked
      by_cases hsame : watch.node = dir
      · have hequal := hs.eq_of_node hx hwatch (hnode.trans hsame.symm)
        rw [hequal, if_pos hsame]
        simp [newsOf, Offer.news, hkinds, hname.1]
      · have hj : x.id ≠ watch.id := by
          intro hid
          rw [hs.eq_of_id hx hwatch hid] at hnode
          exact hsame hnode
        rw [if_neg hsame]
        simp [newsOf, Offer.news, hj]

theorem Hears.ended (room : Queue → Option ℕ) (id : ℕ) :
    w.Hears (· = id) (fun _ ↦ []) (w.ended room id) := by
  unfold Watcher.ended
  cases hindex : w.watches.data.findIdx? fun watch ↦ watch.node = id with
  | none => exact .refl
  | some i =>
    dsimp only
    obtain ⟨hlt, hx, _⟩ := findIdx?_eq_some_iff_getElem.mp hindex
    have hwatch := getElem?_eq_getElem hlt
    rw [hwatch]
    dsimp only
    refine ⟨.single (.finish hwatch), fun watch h ↦ mem_of_mem_eraseIdx h, ?_, ?_⟩
    · intro watch hmem hne
      obtain ⟨p, hp⟩ := mem_iff_getElem?.mp hmem
      refine mem_eraseIdx_iff_getElem?.mpr ⟨p, ?_, hp⟩
      rintro rfl
      rw [hwatch, Option.some.injEq] at hp
      rw [hp] at hx
      exact hne (by simpa using hx)
    · intro _ j dir _
      obtain ⟨noted, hnoted, htell⟩ := tell_history { w with
        watches := w.watches.withData (w.watches.data.eraseIdx i) } room [.ending w.watches.data[i].id]
      refine ⟨noted, htell, ?_⟩
      rw [hnoted]
      simp [newsOf, Offer.news, Offer.ending]

/-- Once a node has lost its names no watch of it is left. -/
theorem ended_node_ne (hs : w.Sound) (room : Queue → Option ℕ) (id : ℕ) :
    ∀ watch ∈ (w.ended room id).watches.data, watch.node ≠ id := by
  intro watch hwatch hnode
  unfold Watcher.ended at hwatch
  cases hindex : w.watches.data.findIdx? fun watch ↦ watch.node = id with
  | none =>
    rw [hindex] at hwatch
    have hnone := findIdx?_eq_none_iff.mp hindex watch hwatch
    simp [hnode] at hnone
  | some i =>
    rw [hindex] at hwatch
    obtain ⟨hlt, hx, _⟩ := findIdx?_eq_some_iff_getElem.mp hindex
    have hget := getElem?_eq_getElem hlt
    dsimp only at hwatch
    rw [hget] at hwatch
    have hmem : watch ∈ w.watches.data.eraseIdx i := hwatch
    have hgone : w.watches.data[i] ∈ w.watches.data := getElem_mem hlt
    have hequal := hs.eq_of_node (mem_of_mem_eraseIdx hmem) hgone
      (by rw [hnode]; simpa using (of_decide_eq_true hx).symm)
    exact id_ne_of_mem_eraseIdx hs.ids_distinct hget hmem (by rw [hequal])

end Watcher

/-! ## All watchers of a state -/

/-- What a change of the state makes its watchers hear. -/
def State.Heard (gone : ℕ → Prop) (news : ℕ → News) (before after : State) : Prop :=
  ∀ (key : ℕ) (w : Watcher), after.watchers[key]? = some w →
    ∃ old, before.watchers[key]? = some old ∧ old.Hears gone news w

namespace State.Heard

variable {gone : ℕ → Prop} {news : ℕ → News} {before middle after s : State}

theorem of_eq (h : after.watchers = before.watchers) : Heard gone (fun _ ↦ []) before after := by
  intro key w hwatcher
  rw [h] at hwatcher
  exact ⟨w, hwatcher, .refl⟩

theorem trans {more : ℕ → News} (a : Heard gone news before middle) (b : Heard gone more middle after) :
    Heard gone (fun dir ↦ news dir ++ more dir) before after := by
  intro key w hwatcher
  obtain ⟨between, hbetween, hb⟩ := b key w hwatcher
  obtain ⟨old, hold, ha⟩ := a key between hbetween
  exact ⟨old, hold, ha.trans hb⟩

/-- A change that tells nothing of names comes before. -/
theorem after_quiet (a : Heard gone (fun _ ↦ []) before middle) (b : Heard gone news middle after) :
    Heard gone news before after := a.trans b

/-- A change that tells nothing of names comes after. -/
theorem before_quiet (a : Heard gone news before middle) (b : Heard gone (fun _ ↦ []) middle after) :
    Heard gone news before after := by
  have htrans := a.trans b
  simpa only [append_nil] using htrans

theorem mono {more : ℕ → Prop} (h : Heard gone news before after) (hmore : ∀ node, gone node → more node) :
    Heard more news before after := by
  intro key w hwatcher
  obtain ⟨old, hold, hhears⟩ := h key w hwatcher
  exact ⟨old, hold, hhears.steps, hhears.subset,
    fun watch hwatch hstays ↦ hhears.keeps watch hwatch fun hgone ↦ hstays (hmore _ hgone), hhears.noted⟩

/-- Every watcher is told something. -/
theorem of_map {tell : ℕ → Watcher → Watcher} (hwatchers : after.watchers = before.watchers.map tell)
    (htell : ∀ (key : ℕ) (w : Watcher), w.Hears gone news (tell key w)) : Heard gone news before after := by
  intro key w hwatcher
  rw [hwatchers, ExtTreeMap.getElem?_map] at hwatcher
  obtain ⟨old, hold, rfl⟩ := Option.map_eq_some_iff.mp hwatcher
  exact ⟨old, hold, htell key old⟩

theorem report (env : Env) (id : ℕ) (hnames : Watcher.Names s.nodes)
    (hplain : Watcher.Plain kinds) : Heard gone (fun _ ↦ []) s (s.report env id kinds) :=
  of_map rfl fun key _ ↦ .report hnames hplain (env.room key) id

theorem reportEntry (env : Env) (dir : ℕ) (cookie : UInt32)
    (hname : ValidName name) (hnaming : Watcher.Naming kinds) :
    Heard gone (fun j ↦ if j = dir then [(kinds, name)] else [])
      s (s.reportEntry env dir name kinds cookie) :=
  of_map rfl fun key _ ↦ .entry hnaming hname (env.room key) dir cookie

theorem ended (env : Env) (id : ℕ) : Heard (· = id) (fun _ ↦ []) s (s.ended env id) :=
  of_map rfl fun key _ ↦ .ended (env.room key) id

theorem applyIf {condition : Prop} [Decidable condition] {change : State → State}
    (h : condition → Heard gone (fun _ ↦ []) s (change s)) :
    Heard gone (fun _ ↦ []) s (applyIf condition change s) := by
  unfold Programs.applyIf
  split
  · exact h ‹_›
  · exact of_eq rfl

end State.Heard

/-! ## Names -/

namespace Watcher.Names

variable {nodes : ExtTreeMap ℕ Node}

variable {change : Node → Node}

variable (h : Names nodes)
include h

/-- A change of a node that brings in no long name. -/
theorem modify (id : ℕ)
    (hchange : ∀ node parent entries, (change node).body = .directory parent entries →
      ∀ (name : Bytes) (child : ℕ), entries[name]? = some child → name.length ≤ Files.maxEntryName ∨
        ∃ above old, node.body = .directory above old ∧ (old[name]?).isSome) :
          Names (nodes.modify id change) := by
  intro key node parent entries name child hnode hbody he
  rcases OrderedMap.modify_cases hnode with ⟨_, old, hold, rfl⟩ | ⟨_, hnode⟩
  · rcases hchange old parent entries hbody name child he with hshort | ⟨above, before, hbefore, hsome⟩
    · exact hshort
    · obtain ⟨x, hx⟩ := Option.isSome_iff_exists.mp hsome
      exact h key old above before name x hold hbefore hx
  · exact h key node parent entries name child hnode hbody he

theorem modify_same (id : ℕ) (hbody : ∀ node, (change node).body = node.body) :
    Names (nodes.modify id change) := by
  refine h.modify id fun node parent entries hchanged name child he ↦ .inr ⟨parent, entries, ?_, ?_⟩
  · rw [← hbody, hchanged]
  · rw [he]
    rfl

theorem withEntries_insert (id : ℕ) (hname : name.length ≤ Files.maxEntryName)
    (child : ℕ) : Names (nodes.modify id (Node.withEntries (·.insert name child))) := by
  refine h.modify id fun node parent entries hchanged wanted x he ↦ ?_
  cases hbody : node.body with
  | directory above old =>
    simp only [Node.withEntries, hbody, Body.directory.injEq] at hchanged
    obtain ⟨_, rfl⟩ := hchanged
    rcases OrderedMap.insert_cases he with ⟨rfl, _⟩ | ⟨_, he⟩
    · exact .inl hname
    · exact .inr ⟨above, old, rfl, by rw [he]; rfl⟩
  | file | link => simp [Node.withEntries, hbody] at hchanged

theorem withEntries_erase (id : ℕ) (name : Bytes) :
    Names (nodes.modify id (Node.withEntries (·.erase name))) := by
  refine h.modify id fun node parent entries hchanged wanted x he ↦ ?_
  cases hbody : node.body with
  | directory above old =>
    simp only [Node.withEntries, hbody, Body.directory.injEq] at hchanged
    obtain ⟨_, rfl⟩ := hchanged
    exact .inr ⟨above, old, rfl, by rw [(OrderedMap.get_of_erase he).2]; rfl⟩
  | file | link => simp [Node.withEntries, hbody] at hchanged

end Watcher.Names

/-- The names of a sound state are short. -/
theorem Core.Sound.names {s : State} (hs : s.core.Sound none) : Watcher.Names s.nodes := by
  intro id node parent entries name child hnode hbody he
  have hx : s.core.child? id name = some child := by
    rw [State.child?_core, hnode, Option.bind_some, hbody]
    exact he
  exact (hs.tree.valid_names id name child hx).2.1

end DotnetPal.Memfs
