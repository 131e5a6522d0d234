import DotnetPal.Native.EventPort
import Mathlib.Data.Finset.Card

/-!
# Polls of descriptors

`SystemNative_Poll`. The sockets among the entries are gathered and asked through the boundary in
one call; every other entry is answered from its own object. What pins, callocs, objects and the
boundary answer is an argument.
-/

namespace DotnetPal.Native.Polling

open List Function

def pollIn : BitVec 16 := 1
def pollOut : BitVec 16 := 4
def pollErr : BitVec 16 := 8
def pollHup : BitVec 16 := 16
def pollNval : BitVec 16 := 32

inductive Failure
  | invalid
  | memory
  | unsupported
  | boundary (status : ℕ)

/-- The kinds of objects; a watch and a pipe with what a look at it finds. -/
inductive Kind
  | stream (number : ℕ)
  | file
  | socket
  | port
  | pipe (writeOnly readable : Bool)
  | watch (ready : ℤ → Bool)

structure Object where
  id : ℕ
  handle : ℕ
  kind : Kind

/-- The place of a socket in the three arrays: its object, its slot and its entry. -/
structure Socket where
  object : ℕ
  slot : ℕ
  entry : ℕ × BitVec 32

/-- A poll under way. -/
structure Poll where
  triggered : ℕ → BitVec 16
  sockets : List Socket
  count : ℕ
  waited : Bool
  pinned : List ℕ
  unpinned : List ℕ
  result : Option Failure

/-- What a poll returns; `asked` is the call of the boundary with its time-out, where
none is no end. -/
structure Outcome extends Poll where
  total : ℕ
  asked : Option (List (ℕ × BitVec 32) × Option ℕ)
  slept : Option ℕ
  arrays : ℕ

/-- An entry is answered, and counted if it is ready. -/
def Poll.answer (i : ℕ) (events : BitVec 16) (p : Poll) : Poll :=
  if events = 0 then p else { p with triggered := update p.triggered i events, count := p.count + 1 }

/-- What an object other than a socket is ready for; none fails the poll. -/
def ready (wait : ℤ) (events : BitVec 16) : Kind → Option (BitVec 16)
  | .watch found => some (if events &&& pollIn ≠ 0 ∧ found wait then pollIn else 0)
  | .pipe true _ => some (events &&& pollOut)
  | .pipe false readable => some (if readable then events &&& pollIn else 0)
  | .stream 0 => if events &&& pollIn ≠ 0 then none else some 0
  | .file => some (events &&& (pollIn ||| pollOut))
  | _ => some (events &&& pollOut)

def mask (events : BitVec 16) : BitVec 32 :=
  (if events &&& pollIn ≠ 0 then Poll.read else 0) ||| (if events &&& pollOut ≠ 0 then Poll.write else 0)

def translated (triggered : BitVec 32) : BitVec 16 :=
  (if triggered &&& Poll.read ≠ 0 then pollIn else 0) |||
    (if triggered &&& Poll.write ≠ 0 then pollOut else 0) |||
    (if triggered &&& Poll.error ≠ 0 then pollErr else 0) |||
      (if triggered &&& Poll.hangup ≠ 0 then pollHup else 0)

/-- The entries: how many, the events each requests, and the object its descriptor has when
it is pinned. -/
structure Request where
  n : ℕ
  events : ℕ → BitVec 16
  pin : ℕ → Option Object
  milliseconds : ℤ

variable (q : Request)

/-- A watch is waited for where it is the only entry. -/
def Request.wait : ℤ := if q.n = 1 then q.milliseconds else 0

def visit (i : ℕ) (p : Poll) : Poll :=
  let p := { p with triggered := update p.triggered i 0 }
  match q.pin i with
  | none => p.answer i pollNval
  | some ⟨id, handle, kind⟩ =>
    let p := { p with pinned := id :: p.pinned }
    match kind with
    | .socket => { p with sockets := p.sockets ++ [⟨id, i, handle, mask (q.events i)⟩] }
    | kind =>
      let p :=
        { p with
          unpinned := id :: p.unpinned
          waited := p.waited || (kind matches .watch _) && q.n = 1 }
      match ready q.wait (q.events i) kind with
      | none => { p with result := some .unsupported }
      | some events => p.answer i events

/-- The first `k` rounds of the loop over the entries. -/
def visits : ℕ → Poll → Poll
  | 0, p => p
  | k + 1, p =>
    let p := visits k p
    if p.result.isSome then p else visit q k p

/-- The first `k` rounds of the loop over the boundary's answers. -/
def scatter (answers : ℕ → BitVec 32) : ℕ → Poll → Poll
  | 0, p => p
  | k + 1, p =>
    let p := scatter answers k p
    match p.sockets[k]? with
    | some socket => p.answer socket.slot (translated (answers k))
    | none => p

/-- The end of a poll: the pins of the sockets are released, the three arrays freed. -/
def finish (allocated : ℕ) (asked : Option (List (ℕ × BitVec 32) × Option ℕ)) (slept : Option ℕ)
    (arrays : ℕ) (p : Poll) : Outcome :=
  { p with
    unpinned := p.sockets.map Socket.object ++ p.unpinned
    total := if p.result.isNone then p.count else 0
    asked := asked, slept := slept, arrays := arrays - allocated }

/-- `SystemNative_Poll`, with `arrays` in use before it; whether each calloc and the scheduler are
there, and what the boundary answers. -/
def poll (start : ℕ → BitVec 16) (entries objects slots scheduler : Bool)
    (boundary : Except ℕ (ℕ → BitVec 32)) (arrays : ℕ) :
    Outcome :=
  if Poll.maxPoll < q.n then ⟨⟨start, [], 0, false, [], [], some .invalid⟩, 0, none, none, arrays⟩
  else
    let allocated := entries.toNat + objects.toNat + slots.toNat
    let arrays := arrays + allocated
    let first := if entries && objects && slots then none else some .memory
    let p := visits q q.n ⟨start, [], 0, false, [], [], first⟩
    let timeout := q.milliseconds.toNat * 1000000
    if p.result.isNone ∧ p.sockets ≠ [] then
      let asked := (p.sockets.map Socket.entry,
        if 0 < p.count then some 0 else if q.milliseconds < 0 then none else some timeout)
      match boundary with
      | .error status => finish allocated asked none arrays { p with result := some (.boundary status) }
      | .ok answers => finish allocated asked none arrays (scatter answers p.sockets.length p)
    else
      let sleeps := p.result.isNone ∧ p.count = 0 ∧ ¬p.waited ∧ 0 < q.milliseconds ∧ scheduler
      finish allocated none (if sleeps then some timeout else none) arrays p

/-- The answer of an entry that is no socket. -/
def own (i : ℕ) : BitVec 16 :=
  match q.pin i with
  | none => pollNval
  | some ⟨_, _, .socket⟩ => 0
  | some ⟨_, _, kind⟩ => (ready q.wait (q.events i) kind).getD 0

/-- The place of an entry that is a socket. -/
def gathered (i : ℕ) : Option Socket :=
  match q.pin i with
  | some ⟨id, handle, .socket⟩ => some ⟨id, i, handle, mask (q.events i)⟩
  | _ => none

variable {q} {p : Poll} {t : ℕ → BitVec 16} {i k : ℕ} {events : BitVec 16}

theorem answer_eq (h : p.triggered i = 0) (events : BitVec 16) : p.answer i events =
    { p with triggered := update p.triggered i events, count := p.count + if events =
      0 then 0 else 1 } := by
  unfold Poll.answer
  split_ifs with hzero
  · rw [hzero, ← h, update_eq_self]
    rfl
  · rfl

/-- The entries of a set that are ready. -/
def triggeredIn (entries : Finset ℕ) (t : ℕ → BitVec 16) : Finset ℕ := entries.filter (t · ≠ 0)

theorem card_triggeredIn_update {entries : Finset ℕ} (h : i ∈ entries → t i = 0) (events : BitVec 16) :
    (triggeredIn (insert i entries) (update t i events)).card =
      (triggeredIn entries t).card + if events = 0 then 0 else 1 := by
  have hnew : i ∉ triggeredIn entries t := fun hmem ↦
    (Finset.mem_filter.mp hmem).2 (h (Finset.mem_filter.mp hmem).1)
  have hothers : ∀ j, j ≠ i →
    (j ∈ triggeredIn (insert i entries) (update t i events) ↔ j ∈ triggeredIn entries t) := by
    intro j hne
    simp [triggeredIn, hne]
  split_ifs with hzero
  · congr 1
    ext j
    by_cases hj : j = i
    · subst hj
      simp only [triggeredIn, Finset.mem_filter, update_self, hzero, ne_eq, not_true_eq_false,
        and_false, false_iff]
      exact fun hmem ↦ hmem.2 (h hmem.1)
    · exact hothers j hj
  · rw [← Finset.card_insert_of_notMem hnew]
    congr 1
    ext j
    by_cases hj : j = i
    · simpa [triggeredIn, hj] using hzero
    · rw [hothers j hj, Finset.mem_insert]
      simp [hj]

/-- The pins that are not released are those of the gathered sockets. -/
def Balanced (p : Poll) : Prop := p.pinned ~ p.sockets.map Socket.object ++ p.unpinned

/-- A round answers its entry or gathers it, unless it fails. -/
theorem visit_spec (k : ℕ) (p : Poll) (h : Balanced p) :
    Balanced (visit q k p) ∧ ((visit q k p).result = none →
      (visit q k p).triggered = update p.triggered k (own q k) ∧
      (visit q k p).count = p.count + (if own q k = 0 then 0 else 1) ∧
      (visit q k p).sockets = p.sockets ++ (gathered q k).toList) := by
  unfold visit own gathered
  cases q.pin k with
  | none =>
    simp only [answer_eq (p := { p with triggered := update p.triggered k 0 }) (update_self ..),
      update_idem]
    exact ⟨h, fun _ ↦ ⟨trivial, trivial, (append_nil _).symm⟩⟩
  | some object =>
    obtain ⟨id, handle, kind⟩ := object
    have hreleased : id :: p.pinned ~ p.sockets.map Socket.object ++ id :: p.unpinned :=
      (h.cons id).trans perm_middle.symm
    cases kind with
    | socket =>
      refine ⟨(h.cons id).trans ?_, fun _ ↦ ⟨rfl, rfl, rfl⟩⟩
      simpa using perm_middle.symm
    | stream | file | port | pipe | watch =>
      dsimp only
      split
      · exact ⟨hreleased, nofun⟩
      · next events hready =>
        simp only [answer_eq
          (p := { p with triggered := update p.triggered k 0, pinned := _, unpinned := _, waited := _ })
          (update_self ..), hready, update_idem]
        exact ⟨hreleased, fun _ ↦ ⟨rfl, rfl, (append_nil _).symm⟩⟩

/-- What the loop over the entries has done after `k` rounds, if it did not fail. -/
structure Visited (q : Request) (k : ℕ) (p : Poll) : Prop where
  own : ∀ i < k, p.triggered i = own q i
  count : p.count = (triggeredIn (Finset.range k) p.triggered).card
  sockets : p.sockets = (range k).filterMap (gathered q)

theorem visits_spec (q : Request) (start : ℕ → BitVec 16) (a : Option Failure) (k : ℕ) :
    Balanced (visits q k ⟨start, [], 0, false, [], [], a⟩) ∧
      ((visits q k ⟨start, [], 0, false, [], [], a⟩).result = none →
        Visited q k (visits q k ⟨start, [], 0, false, [], [], a⟩)) := by
  induction k with
  | zero => exact ⟨.nil, fun _ ↦ ⟨nofun, rfl, rfl⟩⟩
  | succ k ih =>
    rw [visits]
    generalize visits q k ⟨start, [], 0, false, [], [], a⟩ = p at ih
    split_ifs with hfailed
    · exact ⟨ih.1, fun hnone ↦ by simp [hnone] at hfailed⟩
    · refine ⟨(visit_spec k p ih.1).1, fun hnone ↦ ?_⟩
      obtain ⟨htriggered, hn, hsockets⟩ := (visit_spec k p ih.1).2 hnone
      have hvisited := ih.2 (by simpa using hfailed)
      refine ⟨fun i hi ↦ ?_, ?_, ?_⟩
      · rw [htriggered]
        rcases Nat.lt_succ_iff_lt_or_eq.mp hi with hlt | rfl
        · rw [update_of_ne (Nat.ne_of_lt hlt), hvisited.own i hlt]
        · rw [update_self]
      · rw [hn, htriggered, Finset.range_add_one, card_triggeredIn_update (by simp), hvisited.count]
      · rw [hsockets, hvisited.sockets, range_succ, filterMap_append]
        cases hk : gathered q k <;> simp [hk]

variable {socket : Socket}

theorem slot_of_gathered (h : gathered q i = some socket) : socket.slot = i := by
  unfold gathered at h
  split at h
  · rw [← Option.some.inj h]
  · cases h

theorem own_of_gathered (h : gathered q i = some socket) : own q i = 0 := by
  unfold gathered at h
  unfold own
  split at h
  · next hpin => rw [hpin]
  · cases h

theorem map_slot (l : List ℕ) :
    (l.filterMap (gathered q)).map Socket.slot = l.filter fun i ↦ (gathered q i).isSome := by
  induction l with
  | nil => rfl
  | cons i rest ih =>
    cases hi : gathered q i with
    | none => simpa [hi] using ih
    | some socket => simpa [hi, slot_of_gathered hi] using ih

theorem Visited.gathered (h : Visited q k p) (hmem : socket ∈ p.sockets) :
    socket.slot < k ∧ gathered q socket.slot = some socket := by
  obtain ⟨i, hi, hgathered⟩ := mem_filterMap.mp (h.sockets ▸ hmem)
  obtain rfl := slot_of_gathered hgathered
  exact ⟨mem_range.mp hi, hgathered⟩

/-- What the loop over the answers has done after `k` rounds. -/
structure Scattered (answers : ℕ → BitVec 32) (n k : ℕ) (p r : Poll) : Prop where
  same : r = { p with triggered := r.triggered, count := r.count }
  answered : ∀ j < k, ∀ socket, p.sockets[j]? = some socket → r.triggered socket.slot = translated (answers j)
  others : ∀ i, (∀ j < k, ∀ socket, p.sockets[j]? = some socket → socket.slot ≠ i) →
    r.triggered i = p.triggered i
  count : r.count = (triggeredIn (Finset.range n) r.triggered).card

theorem scatter_spec (answers : ℕ → BitVec 32) (h : Visited q q.n p) (hk : k ≤ p.sockets.length) :
    Scattered answers q.n k p (scatter answers k p) := by
  induction k with
  | zero => exact ⟨rfl, nofun, fun _ _ ↦ rfl, h.count⟩
  | succ k ih =>
    have hscattered := ih (by omega)
    rw [scatter]
    generalize scatter answers k p = r at hscattered
    obtain ⟨socket, hget⟩ : ∃ socket, p.sockets[k]? = some socket := ⟨_, getElem?_eq_getElem hk⟩
    have hsame : r.sockets = p.sockets := by rw [hscattered.same]
    -- No earlier answer was for this slot, so it is still untouched.
    have hearlier : ∀ j < k, ∀ other, p.sockets[j]? = some other → other.slot ≠ socket.slot := by
      intro j hj other hother heq
      have hnodup : (p.sockets.map Socket.slot).Nodup := by
        rw [h.sockets, map_slot]
        exact nodup_range.filter _
      refine Nat.ne_of_lt hj ((getElem?_inj (by rw [length_map]; exact Nat.lt_trans hj hk) hnodup).mp ?_)
      rw [getElem?_map, getElem?_map, hother, hget, Option.map_some, Option.map_some, heq]
    obtain ⟨hslot, hgathered⟩ := h.gathered (mem_of_getElem? hget)
    have hzero : r.triggered socket.slot = 0 := by
      rw [hscattered.others _ hearlier, h.own _ hslot, own_of_gathered hgathered]
    simp only [hsame, hget, answer_eq hzero]
    refine ⟨by rw [hscattered.same], fun j hj other hother ↦ ?_, fun i hi ↦ ?_, ?_⟩
    · rcases Nat.lt_succ_iff_lt_or_eq.mp hj with hlt | rfl
      · exact (update_of_ne (hearlier j hlt other hother) ..).trans (hscattered.answered j hlt other hother)
      · cases hget.symm.trans hother
        exact update_self ..
    · exact (update_of_ne (hi k (Nat.lt_succ_self k) socket hget).symm ..).trans
        (hscattered.others i fun j hj ↦ hi j (Nat.lt_succ_of_lt hj))
    · have hinsert : insert socket.slot (Finset.range q.n) = Finset.range q.n :=
        Finset.insert_eq_of_mem (Finset.mem_range.mpr hslot)
      rw [← hinsert, card_triggeredIn_update fun _ ↦ hzero, hscattered.count]

/-- Once every answer is scattered, each entry has its own. -/
theorem Scattered.own {answers : ℕ → BitVec 32} {r : Poll} (h : Scattered answers q.n p.sockets.length p r)
    (hvisited : Visited q q.n p) : r.sockets = (range q.n).filterMap (gathered q) ∧
      (∀ i < q.n, gathered q i = none → r.triggered i = own q i) ∧
      ∀ k socket, r.sockets[k]? = some socket → r.triggered socket.slot = translated (answers k) := by
  have hsame : r.sockets = p.sockets := by rw [h.same]
  refine ⟨hsame.trans hvisited.sockets, fun i hi hnone ↦ ?_, fun k socket hget ↦ ?_⟩
  · refine (h.others i fun j _ socket hget heq ↦ ?_).trans (hvisited.own i hi)
    have hgathered := (hvisited.gathered (mem_of_getElem? hget)).2
    rw [heq, hnone] at hgathered
    cases hgathered
  · rw [hsame] at hget
    exact h.answered k (List.getElem?_eq_some_iff.mp hget).1 socket hget

/-- A poll that succeeds counts the entries that are ready; each socket has the boundary's
answer for its own entry, and every other entry the one of its own object. The boundary is asked
to wait only where no entry was ready. A poll that fails answers zero, and every pin and array
is given back. -/
theorem poll_exact (q : Request) (start : ℕ → BitVec 16) (entries objects slots scheduler : Bool)
    (boundary : Except ℕ (ℕ → BitVec 32)) (arrays : ℕ) :
    let r := poll q start entries objects slots scheduler boundary arrays
    (r.result = none → r.total = (triggeredIn (Finset.range q.n) r.triggered).card ∧
      r.sockets = (range q.n).filterMap (gathered q) ∧
      (∀ i < q.n, gathered q i = none → r.triggered i = own q i) ∧
      (∀ k socket, r.sockets[k]? = some socket → ∃ answers, boundary = .ok answers ∧
        r.triggered socket.slot = translated (answers k))) ∧
    (r.result ≠ none → r.total = 0) ∧
    (∀ question timeout, r.asked = some (question, timeout) → question = r.sockets.map Socket.entry ∧
      (timeout ≠ some 0 → ∀ i < q.n, own q i = 0)) ∧
    r.pinned ~ r.unpinned ∧ r.arrays = arrays := by
  unfold poll
  split
  · exact ⟨nofun, fun _ ↦ rfl, nofun, .nil, rfl⟩
  have hvisits := visits_spec q start (if entries && objects && slots then none else some .memory) q.n
  dsimp only
  generalize visits q q.n _ = p at hvisits
  obtain ⟨hbalanced, hvisited⟩ := hvisits
  have harrays := Nat.add_sub_cancel arrays (entries.toNat + objects.toNat + slots.toNat)
  split
  · next hasked =>
    have hnone := Option.isNone_iff_eq_none.mp hasked.1
    have hsound := hvisited hnone
    have hidle : ∀ timeout, (if 0 < p.count then some 0 else timeout) ≠ some 0 → ∀ i <
      q.n, own q i = 0 := by
      intro timeout hwaits i hi
      have hcount : p.count = 0 := by_contra fun hne ↦ hwaits (if_pos (Nat.pos_of_ne_zero hne))
      rw [hsound.count, Finset.card_eq_zero] at hcount
      rw [← hsound.own i hi]
      by_contra hne
      exact Finset.notMem_empty i (hcount ▸ Finset.mem_filter.mpr ⟨Finset.mem_range.mpr hi, hne⟩)
    cases boundary with
    | error status =>
      refine ⟨nofun, fun _ ↦ rfl, ?_, hbalanced, harrays⟩
      rintro _ _ ⟨⟩
      exact ⟨rfl, hidle _⟩
    | ok answers =>
      have hscattered := scatter_spec answers hsound (Nat.le_refl _)
      dsimp only [finish]
      generalize scatter answers p.sockets.length p = r at hscattered ⊢
      obtain ⟨hsockets, hown, hanswered⟩ := hscattered.own hsound
      have hresult : r.result = none := by rw [hscattered.same, hnone]
      have hreleased : Balanced r := by rwa [hscattered.same]
      rw [hresult]
      refine ⟨fun _ ↦
        ⟨hscattered.count, hsockets, hown, fun k socket hget ↦ ⟨answers, rfl, hanswered k socket hget⟩⟩,
        fun hne ↦ absurd rfl hne, ?_, hreleased, harrays⟩
      rintro _ _ ⟨⟩
      exact ⟨by rw [hscattered.same], hidle _⟩
  · next hskipped =>
    dsimp only [finish]
    refine ⟨fun hnone ↦ ?_, fun hfailed ↦ if_neg (by simpa using hfailed), nofun, hbalanced, harrays⟩
    have hsound := hvisited hnone
    have hempty : p.sockets = [] := by_contra fun hne ↦ hskipped ⟨Option.isNone_iff_eq_none.mpr hnone, hne⟩
    refine ⟨by rw [hnone]; exact hsound.count, hsound.sockets, fun i hi _ ↦ hsound.own i hi, ?_⟩
    simp [hempty]

end DotnetPal.Native.Polling
