import DotnetPal.Port
import Mathlib.Data.List.Basic
import Mathlib.Data.List.Count

/-!
# Front ends that check what a provider answers

Five calls of the boundary let the provider write into the caller's memory and judge the answer
afterwards: the text answers, `directory_read`, `poll`, `resolve` and the read of a watcher. The
provider is any implementation: an answer is the value it returned together with what it left in the
buffer it was given. A pointer that is null or not aligned is the caller's breach and left out.
-/

open List

namespace DotnetPal.Boundary

/-- What a provider returned and what it left in the buffer it was given. -/
structure Answer (α β : Type) (capacity : ℕ) where
  result : Except Error α
  left : List β
  fits : left.length = capacity

/-- What the caller of a front end has afterwards, and whether the provider was asked. -/
structure Reply (α : Type) where
  asked : Bool
  status : Except Error Unit
  out : α

/-- `record`: an error outside the set a group publishes becomes `OS_ERROR`. -/
def record (kept : Error → Bool) : Except Error Unit → Except Error Unit
  | .ok () => .ok ()
  | .error error => .error (if kept error then error else .os)

variable {status : Except Error Unit}

/-- What a call leaves is good after a success and bad after a failure. -/
inductive Judged {α : Type} (good bad : α → Prop) : Except Error Unit → α → Prop
  | ok {out : α} (h : good out) : Judged good bad (.ok ()) out
  | error {error : Error} {out : α} (h : bad out) : Judged good bad (.error error) out

section Judged

variable {α : Type} {good bad : α → Prop} {status : Except Error Unit} {out : α}

theorem Judged.record (h : Judged good bad status out) (kept : Error → Bool) :
    Judged good bad (record kept status) out := by
  cases h with
  | ok hgood => exact .ok hgood
  | error hbad => exact .error hbad

theorem Judged.spec (h : Judged good bad status out) :
    (status = .ok () → good out) ∧ (status ≠ .ok () → bad out) := by
  cases h with
  | ok hgood => exact ⟨fun _ ↦ hgood, fun hne ↦ absurd rfl hne⟩
  | error hbad => exact ⟨(fun hok ↦ by cases hok), fun _ ↦ hbad⟩

end Judged

/-! ## Text answers -/

/-- A text in the caller's buffer, with the length the call reports. -/
structure Text where
  bytes : List UInt8
  needed : ℕ

/-- What `io::text` makes of a provider's answer, with the length it writes. `limit` is the longest
text, with its NUL, the call allows. -/
def judge {capacity : ℕ} (limit : ℕ) (answer : Answer ℕ UInt8 capacity) : Except Error Unit × ℕ :=
  match answer.result with
  | .ok length =>
    if ¬(2 ≤ length ∧ length ≤ limit) then (.error .os, 0)
    else if capacity < length then (.error .bufferTooSmall, length)
    else if answer.left[length - 1]? ≠ some 0 ∨ 0 ∈ answer.left.take (length - 1) then (.error .os, 0)
    else (.ok (), length)
  | .error error => (.error error, 0)

/-- `io::text` after the length was set to zero: a buffer without a text is cleared. -/
def text {capacity : ℕ} (limit : ℕ) (answer : Answer ℕ UInt8 capacity) : Except Error Unit × Text :=
  match judge limit answer with
  | (.ok (), needed) => (.ok (), ⟨answer.left, needed⟩)
  | (.error error, needed) => (.error error, ⟨replicate capacity 0, needed⟩)

/-- A call that answers with a text and records its status; `kept` are the errors it passes on. -/
def textAnswer {capacity : ℕ} (kept : Error → Bool) (limit : ℕ) (answer : Answer ℕ UInt8 capacity) :
    Reply Text :=
  let (status, out) := text limit answer
  ⟨true, record kept status, out⟩

/-- `environment_entry`: the text must be a name, `=` and a value. -/
def environmentEntry {capacity : ℕ} (kept : Error → Bool) (limit : ℕ)
    (answer : Answer ℕ UInt8 capacity) : Reply Text :=
  match text limit answer with
  | (.ok (), out) =>
    match (out.bytes.take (out.needed - 1)).findIdx? (· = 61) with
    | some (_ + 1) => ⟨true, .ok (), out⟩
    | _ => ⟨true, .error .os, ⟨replicate capacity 0, 0⟩⟩
  | (.error error, out) => ⟨true, record kept (.error error), out⟩

/-- A text of `needed` bytes with exactly one NUL, the last one. -/
structure Text.Terminated (text : Text) (limit capacity : ℕ) : Prop where
  lower : 2 ≤ text.needed
  upper : text.needed ≤ limit
  inside : text.needed ≤ capacity
  last : text.bytes[text.needed - 1]? = some 0
  only : 0 ∉ text.bytes.take (text.needed - 1)

/-- The buffer is clear, and the length is zero or that of a text that does not fit. -/
structure Text.Cleared (text : Text) (limit capacity : ℕ) (result : Except Error ℕ) : Prop where
  bytes : text.bytes = replicate capacity 0
  needed : text.needed = 0 ∨ (result = .ok text.needed ∧ capacity < text.needed ∧ text.needed ≤ limit)
  fit : ∀ length, result = .ok length → 2 ≤ length → length ≤ limit → capacity < length → text.needed = length

section Text

variable {cap : ℕ}

/-- A text is accepted with one NUL at its end, or the buffer is cleared. -/
theorem text_cases (limit : ℕ) (a : Answer ℕ UInt8 cap) :
    Judged (·.Terminated limit cap) (·.Cleared limit cap a.result) (text limit a).1
      (text limit a).2 := by
  unfold text judge
  cases hresult : a.result with
  | error error => exact .error ⟨rfl, .inl rfl, fun _ h ↦ by cases h⟩
  | ok length =>
    simp only
    split_ifs with hrange hlong hbytes
    · exact .error ⟨rfl, .inr ⟨rfl, hlong, hrange.2⟩, fun x hx _ _ _ ↦ Except.ok.inj hx⟩
    · refine .error ⟨rfl, .inl rfl, fun x hx _ _ hover ↦ ?_⟩
      obtain rfl := Except.ok.inj hx
      exact absurd hover hlong
    · rw [not_or, not_not] at hbytes
      exact .ok ⟨hrange.1, hrange.2, not_lt.mp hlong, hbytes.1, hbytes.2⟩
    · refine .error ⟨rfl, .inl rfl, fun x hx hlower hupper ↦ ?_⟩
      obtain rfl := Except.ok.inj hx
      exact absurd ⟨hlower, hupper⟩ hrange

theorem environmentEntry_cases (kept : Error → Bool) (limit : ℕ) (a : Answer ℕ UInt8 cap) :
    Judged (·.Terminated limit cap) (·.Cleared limit cap a.result) (environmentEntry kept limit a).status
      (environmentEntry kept limit a).out := by
  have hcases := text_cases limit a
  unfold environmentEntry
  split
  · next out htext =>
    rw [htext] at hcases
    cases hcases with | ok hterminated =>
    split
    · exact .ok hterminated
    · refine .error ⟨rfl, .inl rfl, fun length hresult hlower hupper hover ↦ ?_⟩
      -- A text that does not fit is not accepted, so this one fits.
      have hneeded : (text limit a).1 = .error .bufferTooSmall := by
        simp [text, judge, hresult, hlower, hupper, hover]
      rw [htext] at hneeded
      cases hneeded
  · next error out htext =>
    rw [htext] at hcases
    exact hcases.record kept

end Text

/-! ## Entries of a directory -/

def maxEntryName : ℕ := 255

structure DirectoryEntry where
  name : List UInt8
  length : ℕ
  kind : ℕ

/-- The errors the files group publishes. -/
def filesKept : Error → Bool
  | .unsupported | .invalidArgument | .os | .outOfMemory | .busy | .notFound | .alreadyExists | .accessDenied
  | .isDirectory | .notDirectory | .notEmpty | .noSpace | .tooManyHandles | .nameTooLong
  | .readOnly | .crossDevice => true
  | _ => false

/-- One turn of the loop of `directory_read`; nothing where the provider named one of the two
self references. -/
def directoryTurn {capacity : ℕ} (answer : Answer (ℕ × ℕ) UInt8 capacity) :
    Option (Except Error Unit × DirectoryEntry) :=
  match answer.result with
  | .error error => some (.error error, ⟨replicate capacity 0, 0, 0⟩)
  | .ok (done, node) =>
    if done = 0 ∨ maxEntryName < done then some (.error .os, ⟨replicate capacity 0, 0, 0⟩)
    else if answer.left.take done = [46] ∨ answer.left.take done = [46, 46] then none
    else if 1 ≤ node ∧ node ≤ 4 ∧ 0 ∉ answer.left.take done ∧ 47 ∉ answer.left.take done then
      some (.ok (), ⟨answer.left, done, node⟩)
    else some (.error .os, ⟨replicate capacity 0, 0, 0⟩)

/-- The loop of `directory_read` for a number of turns; the provider answers the `turn`-th question. -/
def directoryLoop {capacity : ℕ} (answers : ℕ → Answer (ℕ × ℕ) UInt8 capacity) (turn : ℕ) :
    ℕ → Option (Except Error Unit × DirectoryEntry)
  | 0 => none
  | turns + 1 =>
    match directoryTurn (answers turn) with
    | some reply => some reply
    | none => directoryLoop answers (turn + 1) turns

/-- `directory_read` on a buffer; nothing while the loop goes on. -/
def directoryRead (buffer : List UInt8) (answers : ℕ → Answer (ℕ × ℕ) UInt8 buffer.length) (turns : ℕ) :
    Option (Reply DirectoryEntry) :=
  if buffer.length < maxEntryName then some ⟨false, .error .invalidArgument, ⟨buffer, 0, 0⟩⟩
  else (directoryLoop answers 0 turns).map fun (status, entry) ↦ ⟨true, record filesKept status, entry⟩

/-- A name of 1 to 255 bytes that a directory can have, with a known kind. -/
structure DirectoryEntry.Valid (entry : DirectoryEntry) : Prop where
  lower : 1 ≤ entry.length
  upper : entry.length ≤ maxEntryName
  inside : entry.length ≤ entry.name.length
  nul : 0 ∉ entry.name.take entry.length
  slash : 47 ∉ entry.name.take entry.length
  self : entry.name.take entry.length ≠ [46]
  parent : entry.name.take entry.length ≠ [46, 46]
  kind : 1 ≤ entry.kind ∧ entry.kind ≤ 4

section Directory

variable {cap : ℕ}

theorem directoryTurn_cases (hcapacity : maxEntryName ≤ cap) {a : Answer (ℕ × ℕ) UInt8 cap}
    {e : DirectoryEntry} (hturn : directoryTurn a = some (status, e)) :
    Judged (·.Valid) (· = ⟨replicate cap 0, 0, 0⟩) status e := by
  unfold directoryTurn at hturn
  split at hturn
  · cases hturn
    exact .error rfl
  · next done node _ =>
    split_ifs at hturn with hlen hself hgood <;> cases hturn
    · exact .error rfl
    · have hfits := a.fits
      rw [not_or] at hself
      exact .ok ⟨by simp only; omega, by simp only; omega, by simp only; omega, hgood.2.2.1,
        hgood.2.2.2, hself.1, hself.2, hgood.1, hgood.2.1⟩
    · exact .error rfl

variable {answers : ℕ → Answer (ℕ × ℕ) UInt8 cap}

theorem directoryLoop_cases (hcapacity : maxEntryName ≤ cap) {e : DirectoryEntry} (turn turns : ℕ)
    (hloop : directoryLoop answers turn turns = some (status, e)) :
    Judged (·.Valid) (· = ⟨replicate cap 0, 0, 0⟩) status e := by
  induction turns generalizing turn with
  | zero => cases hloop
  | succ turns ih =>
    rw [directoryLoop] at hloop
    split at hloop
    · next reply hturn =>
      obtain rfl := Option.some.inj hloop
      exact directoryTurn_cases hcapacity hturn
    · exact ih (turn + 1) hloop

/-- The loop ends once the provider names something else than a self reference. -/
theorem directoryLoop_isSome (turn turns : ℕ)
    (hj : ∃ later < turns, directoryTurn (answers (turn + later)) ≠ none) :
    (directoryLoop answers turn turns).isSome = true := by
  induction turns generalizing turn with
  | zero =>
    obtain ⟨later, hlater, _⟩ := hj
    omega
  | succ turns ih =>
    rw [directoryLoop]
    split
    · rfl
    · next hnone =>
      obtain ⟨later, hlater, hturn⟩ := hj
      cases later with
      | zero => exact absurd hnone hturn
      | succ later => exact ih (turn + 1) ⟨later, by omega, by rwa [Nat.add_right_comm]⟩

end Directory

/-! ## Polls -/

def pollRead : BitVec 32 := 1

def pollWrite : BitVec 32 := 2

def pollError : BitVec 32 := 4

def pollHangup : BitVec 32 := 8

structure PollEntry where
  /-- Zero is a null pointer. -/
  socket : ℕ
  requested : BitVec 32
  triggered : BitVec 32

/-- The errors the sockets group publishes. -/
def sanitize : Error → Bool
  | .unsupported | .invalidArgument | .os | .outOfMemory | .timeout | .accessDenied | .wouldBlock | .brokenPipe
  | .connectionRefused | .connectionReset | .connectionAborted | .notConnected | .alreadyConnected | .addressInUse
  | .addressNotAvailable | .networkUnreachable | .hostUnreachable | .inProgress
  | .tooManyHandles | .messageTooLarge => true
  | _ => false

/-- Clears the entries up to the first that cannot be polled; whether there is none. -/
def prepare : List PollEntry → Bool × List PollEntry
  | [] => (true, [])
  | entry :: rest =>
    if entry.socket = 0 ∨ entry.requested &&& ~~~(pollRead ||| pollWrite) ≠ 0 then
      (false, { entry with triggered := 0 } :: rest)
    else ((prepare rest).1, { entry with triggered := 0 } :: (prepare rest).2)

/-- The bits an entry may report. -/
def PollEntry.mask (entry : PollEntry) : BitVec 32 :=
  entry.requested &&& (pollRead ||| pollWrite) ||| pollError ||| pollHangup

/-- Masks what the provider reported and counts the entries that are ready. -/
def settle : List PollEntry → List PollEntry × ℕ
  | [] => ([], 0)
  | entry :: rest =>
    let settled := { entry with triggered := entry.triggered &&& entry.mask }
    (settled :: (settle rest).1, (settle rest).2 + if settled.triggered ≠ 0 then 1 else 0)

/-- `poll`. The provider returned `result` and wrote the triggered fields. -/
def poll (entries : List PollEntry) (channel : ℕ) (result : Except Error Unit) (triggered : ℕ → BitVec 32) :
    Reply (List PollEntry × ℕ) :=
  if 4096 < entries.length ∨ (64 ≤ channel ∧ channel ≠ 2 ^ 32 - 1) then
    ⟨false, .error .invalidArgument, entries, 0⟩
  else
    match prepare entries with
    | (false, cleared) => ⟨false, .error .invalidArgument, cleared, 0⟩
    | (true, cleared) =>
      let written := cleared.mapIdx fun i entry ↦ { entry with triggered := triggered i }
      match result with
      | .error error =>
        ⟨true, record sanitize (.error error), written.map fun entry ↦ { entry with triggered := 0 }, 0⟩
      | .ok () => ⟨true, record sanitize (.ok ()), settle written⟩

theorem settle_mask (entries : List PollEntry) :
    ∀ e ∈ (settle entries).1, e.triggered &&& ~~~(e.requested ||| pollError ||| pollHangup) = 0 := by
  induction entries with
  | nil => simp [settle]
  | cons a rest ih =>
    intro e he
    rcases mem_cons.mp he with rfl | hold
    · simp only [PollEntry.mask]
      ext i hindex
      simp
      grind
    · exact ih e hold

theorem settle_count (entries : List PollEntry) :
    (settle entries).2 = (settle entries).1.countP (·.triggered ≠ 0) := by
  induction entries with
  | nil => rfl
  | cons a rest ih =>
    rw [settle, countP_cons, ih]
    simp

/-- What the caller asks about an entry. -/
def PollEntry.question (entry : PollEntry) : ℕ × BitVec 32 := (entry.socket, entry.requested)

theorem prepare_question (entries : List PollEntry) :
    (prepare entries).2.map PollEntry.question = entries.map PollEntry.question := by
  induction entries with
  | nil => rfl
  | cons e rest ih =>
    rw [prepare]
    split_ifs
    · rfl
    · simp only [map_cons, ih, PollEntry.question]

theorem settle_question (entries : List PollEntry) :
    (settle entries).1.map PollEntry.question = entries.map PollEntry.question := by
  induction entries with
  | nil => rfl
  | cons e rest ih => simp only [settle, map_cons, ih, PollEntry.question]

/-- A poll leaves the questions of the caller alone. -/
theorem poll_question (entries : List PollEntry) (channel : ℕ) (result : Except Error Unit)
    (triggered : ℕ → BitVec 32) :
    (poll entries channel result triggered).out.1.map PollEntry.question =
      entries.map PollEntry.question := by
  have hwritten : ∀ cleared : List PollEntry,
      (cleared.mapIdx fun i e ↦ { e with triggered := triggered i }).map PollEntry.question =
        cleared.map PollEntry.question := by
    intro cleared
    apply ext_getElem?
    intro i
    simp only [getElem?_map, getElem?_mapIdx, Option.map_map]
    rfl
  have hprepared := prepare_question entries
  unfold poll
  split_ifs
  · rfl
  · split
    · next cleared hprepare =>
      rwa [hprepare] at hprepared
    · next cleared hprepare =>
      rw [hprepare] at hprepared
      cases result with
      | error error =>
        rw [← hprepared, ← hwritten cleared, map_map]
        rfl
      | ok _ => exact (settle_question _).trans ((hwritten cleared).trans hprepared)

/-! ## Addresses of a name -/

structure Address where
  family : ℕ
  port : ℕ
  scope : ℕ
  address : List UInt8

def ipv4 : ℕ := 1

def ipv6 : ℕ := 2

/-- `Address::default()`. -/
def Address.empty : Address := ⟨0, 0, 0, replicate 16 0⟩

/-- The address with the bytes its family does not use cleared; nothing for an unknown family. -/
def Address.normalized (addr : Address) : Option Address :=
  if addr.family = ipv4 then
    some { addr with scope := 0, address := addr.address.take 4 ++ replicate (addr.address.length - 4) 0 }
  else if addr.family = ipv6 then some addr
  else none

/-- A known family, the asked one if any, and clear bytes where the family has none. -/
structure Address.Known (family : ℕ) (addr : Address) : Prop where
  known : addr.family = ipv4 ∨ addr.family = ipv6
  asked : family = 0 ∨ addr.family = family
  unused : addr.family = ipv4 → addr.scope = 0 ∧ ∀ byte ∈ addr.address.drop 4, byte = 0

/-- Normalizes what the provider found; whether every address is of the asked family. -/
def accept (family : ℕ) : List Address → Bool × List Address
  | [] => (true, [])
  | addr :: rest =>
    match addr.normalized with
    | some normal =>
      if family = 0 ∨ normal.family = family then ((accept family rest).1, normal :: (accept family rest).2)
      else (false, addr :: (accept family rest).2)
    | none => (false, addr :: (accept family rest).2)

/-- `io::path`: 1 to 4095 bytes and no NUL. -/
def isPath (name : List UInt8) : Bool := 1 ≤ name.length && name.length ≤ 4095 && !name.contains 0

/-- `NOT_FOUND` belongs to resolve alone. -/
def resolveKept (error : Error) : Bool := error = .notFound || sanitize error

/-- What `resolve` makes of a provider's answer. -/
def resolved {capacity : ℕ} (family : ℕ) (answer : Answer ℕ Address capacity) :
    Except Error Unit × List Address × ℕ :=
  match answer.result with
  | .error error => (.error error, replicate capacity .empty, 0)
  | .ok found =>
    if found = 0 then (.error .notFound, replicate capacity .empty, 0)
    else if capacity < found then (.error .os, replicate capacity .empty, 0)
    else
      match accept family (answer.left.take found) with
      | (true, addresses) => (.ok (), addresses ++ answer.left.drop found, found)
      | (false, _) => (.error .os, replicate capacity .empty, 0)

/-- `resolve` of a name into the addresses of a buffer. -/
def resolve (name : List UInt8) (family : ℕ) (buffer : List Address)
    (answer : Answer ℕ Address buffer.length) :
    Reply (List Address × ℕ) :=
  if buffer.length = 0 ∨ 64 < buffer.length ∨ 2 < family ∨ 255 < name.length then
    ⟨false, .error .invalidArgument, buffer, 0⟩
  else if isPath name = false then ⟨false, .error .invalidArgument, buffer, 0⟩
  else ⟨true, record resolveKept (resolved family answer).1, (resolved family answer).2⟩

theorem Address.normalized_known {family : ℕ} {addr normal : Address} (h : addr.normalized = some normal)
    (hfamily : family = 0 ∨ normal.family = family) : normal.Known family := by
  unfold normalized at h
  split_ifs at h with hfour hsix <;> cases h
  · refine ⟨.inl hfour, hfamily, fun _ ↦ ⟨rfl, fun byte hbyte ↦ ?_⟩⟩
    rw [drop_append, mem_append] at hbyte
    rcases hbyte with hhead | htail
    · simp at hhead
    · exact eq_of_mem_replicate (mem_of_mem_drop htail)
  · exact ⟨.inr hsix, hfamily, fun heq ↦ absurd heq hfour⟩

theorem accept_length (family : ℕ) (addresses : List Address) :
    (accept family addresses).2.length = addresses.length := by
  induction addresses with
  | nil => rfl
  | cons addr rest ih =>
    rw [accept]
    split
    · split_ifs <;> simp [ih]
    · simp [ih]

theorem accept_known {family : ℕ} {addresses : List Address} (h : (accept family addresses).1 = true) :
    ∀ addr ∈ (accept family addresses).2, addr.Known family := by
  induction addresses with
  | nil => simp [accept]
  | cons a rest ih =>
    rw [accept] at h ⊢
    split at h
    · next normal hnormal =>
      split_ifs at h ⊢ with hfamily
      intro addr haddr
      rcases mem_cons.mp haddr with rfl | hold
      · exact Address.normalized_known hnormal hfamily
      · exact ih h addr hold
    · cases h

/-- 1 to capacity addresses, each known, or a clear buffer and no address. -/
theorem resolved_cases {cap : ℕ} (family : ℕ) (a : Answer ℕ Address cap) :
    Judged (fun out ↦ 1 ≤ out.2 ∧ out.2 ≤ cap ∧ out.1.length = cap ∧ ∀ addr ∈ out.1.take out.2,
      addr.Known family)
      (· = (replicate cap .empty, 0)) (resolved family a).1 (resolved family a).2 := by
  unfold resolved
  split
  · exact .error rfl
  · next x _ =>
    split_ifs with hnone hmany
    · exact .error rfl
    · exact .error rfl
    · split
      · next addresses haccept =>
        have hfits := a.fits
        have hlen : addresses.length = x := by
          have hlen := accept_length family (a.left.take x)
          rw [haccept, length_take] at hlen
          simp only at hlen
          omega
        have hknown : ∀ addr ∈ (accept family (a.left.take x)).2, addr.Known family :=
          accept_known (by rw [haccept])
        rw [haccept] at hknown
        refine .ok ⟨by simp only; omega, by simp only; omega, by simp; omega, ?_⟩
        rwa [take_append_of_le_length hlen.ge, take_of_length_le hlen.le]
      · exact .error rfl

/-! ## Events of a watcher -/

def watchDirectory : BitVec 32 := 512

def watchOverflow : BitVec 32 := 128

/-- The kinds of events, the end of a watch, a loss, and the mark of a directory. -/
def reportable : BitVec 32 := 1023

structure WatchEvent where
  watch : ℕ
  events : BitVec 32
  cookie : ℕ
  nameLength : ℕ
  name : List UInt8
  size : name.length = 256

def WatchEvent.empty : WatchEvent := ⟨0, 0, 0, 0, replicate 256 0, length_replicate⟩

/-- The errors the read of a watcher publishes. -/
def watchReadKept : Error → Bool
  | .unsupported | .invalidArgument | .os | .outOfMemory | .timeout => true
  | _ => false

/-- An event a consumer could not act on. -/
def WatchEvent.broken (event : WatchEvent) : Bool :=
  event.events &&& reportable &&& ~~~watchDirectory = 0 || event.events &&& ~~~reportable ≠ 0
    || (event.events &&& watchOverflow ≠ 0) ≠ (event.watch = 0)
    || maxEntryName < event.nameLength || event.name[event.nameLength]? ≠ some 0
    || (event.name.take event.nameLength).any fun byte ↦ byte = 0 || byte = 47

/-- The read of a watcher; the provider returned `result` and wrote `event`. -/
def watchRead (result : Except Error Unit) (event : WatchEvent) : Reply WatchEvent :=
  match result with
  | .error error => ⟨true, record watchReadKept (.error error), .empty⟩
  | .ok () => if event.broken then ⟨true, record watchReadKept (.error .os), .empty⟩
  else ⟨true, record watchReadKept (.ok ()), event⟩

/-- A known kind and no other, no watch exactly for a loss, and a terminated entry name. -/
structure WatchEvent.Valid (event : WatchEvent) : Prop where
  kind : event.events &&& reportable &&& ~~~watchDirectory ≠ 0
  known : event.events &&& ~~~reportable = 0
  overflow : event.watch = 0 ↔ event.events &&& watchOverflow ≠ 0
  length : event.nameLength ≤ maxEntryName
  terminated : event.name[event.nameLength]? = some 0
  name : ∀ byte ∈ event.name.take event.nameLength, byte ≠ 0 ∧ byte ≠ 47

theorem WatchEvent.valid_of_not_broken {event : WatchEvent} (h : event.broken = false) : event.Valid := by
  simp only [broken, Bool.or_eq_false_iff, decide_eq_false_iff_not, any_eq_false, not_not, not_lt, not_or,
    Bool.or_eq_true, decide_eq_true_eq, ne_eq, eq_iff_iff] at h
  obtain ⟨⟨⟨⟨⟨hkind, hknown⟩, hoverflow⟩, hlen⟩, hterminated⟩, hname⟩ := h
  exact ⟨hkind, hknown, hoverflow.symm, hlen, hterminated, hname⟩

theorem WatchEvent.Valid.not_broken {event : WatchEvent} (h : event.Valid) : event.broken = false := by
  simp only [broken, Bool.or_eq_false_iff, decide_eq_false_iff_not, any_eq_false, not_not, not_lt, not_or,
    Bool.or_eq_true, decide_eq_true_eq, ne_eq, eq_iff_iff]
  exact ⟨⟨⟨⟨⟨h.kind, h.known⟩, h.overflow.symm⟩, h.length⟩, h.terminated⟩, h.name⟩

theorem watchRead_cases (result : Except Error Unit) (event : WatchEvent) :
    Judged (·.Valid) (· = .empty) (watchRead result event).status (watchRead result event).out := by
  unfold watchRead
  split
  · exact .error rfl
  · split_ifs with hbroken
    · exact .error rfl
    · exact .ok (WatchEvent.valid_of_not_broken (by simpa using hbroken))

/-! ## All five -/

/-- Whatever a provider returns and writes: a front end that answers OK hands out something valid,
and one that fails after it asked the provider hands out nothing of it. -/
theorem frontEnds_valid : (∀ (cap limit : ℕ) (kept : Error → Bool) (a : Answer ℕ UInt8 cap),
      ∀ reply ∈ [textAnswer kept limit a, environmentEntry kept limit a],
        (reply.status = .ok () → reply.out.Terminated limit cap) ∧
        (reply.status ≠ .ok () → reply.out.Cleared limit cap a.result)) ∧
    (∀ (buffer : List UInt8) (answers : ℕ → Answer (ℕ × ℕ) UInt8 buffer.length) (turns : ℕ),
      (∀ reply, directoryRead buffer answers turns = some reply →
        (reply.status = .ok () → reply.out.Valid) ∧
        (reply.asked = true → reply.status ≠ .ok () → reply.out = ⟨replicate buffer.length 0, 0, 0⟩)) ∧
      ((∃ turn < turns, directoryTurn (answers turn) ≠ none) →
        (directoryRead buffer answers turns).isSome = true)) ∧
    (∀ (entries : List PollEntry) (channel : ℕ) (result : Except Error Unit)
      (triggered : ℕ → BitVec 32) (reply), poll entries channel result triggered = reply →
      reply.out.1.map PollEntry.question = entries.map PollEntry.question ∧
      (reply.status = .ok () →
        (∀ entry ∈ reply.out.1, entry.triggered &&& ~~~(entry.requested ||| pollError ||| pollHangup) = 0) ∧
        reply.out.2 = reply.out.1.countP (·.triggered ≠ 0)) ∧
      (reply.asked = true → reply.status ≠ .ok () → (∀ entry ∈ reply.out.1, entry.triggered = 0) ∧
        reply.out.2 = 0)) ∧
    (∀ (name : List UInt8) (family : ℕ) (buffer : List Address) (a : Answer ℕ Address buffer.length)
      (reply), resolve name family buffer a = reply →
      (reply.status = .ok () → 1 ≤ reply.out.2 ∧ reply.out.2 ≤ buffer.length ∧ reply.out.1.length =
        buffer.length ∧
        ∀ addr ∈ reply.out.1.take reply.out.2, addr.Known family) ∧
      (reply.asked = true → reply.status ≠ .ok () → reply.out = (replicate buffer.length .empty, 0))) ∧
    (∀ (result : Except Error Unit) (event : WatchEvent),
      ((watchRead result event).status = .ok () → (watchRead result event).out.Valid) ∧
      ((watchRead result event).status ≠ .ok () → (watchRead result event).out = .empty)) := by
  refine ⟨fun cap limit kept a reply hreply ↦ ?text, fun buffer answers turns ↦ ?dir,
    fun entries channel result triggered reply hreply ↦
      ⟨hreply ▸ poll_question entries channel result triggered, ?poll⟩,
    fun name family buffer a reply hreply ↦ ?resolve, fun result event ↦
      (watchRead_cases result event).spec⟩
  case text =>
    simp only [mem_cons, not_mem_nil, or_false] at hreply
    rcases hreply with rfl | rfl
    · exact ((text_cases limit a).record kept).spec
    · exact (environmentEntry_cases kept limit a).spec
  case dir =>
    unfold directoryRead
    split_ifs with hshort
    · refine ⟨fun reply hreply ↦ ?_, fun _ ↦ rfl⟩
      obtain rfl := Option.some.inj hreply
      exact ⟨(fun hok ↦ by cases hok), fun hasked ↦ by cases hasked⟩
    · refine ⟨fun reply hreply ↦ ?_, fun ⟨turn, hturn, hother⟩ ↦ ?_⟩
      · obtain ⟨⟨status, entry⟩, hloop, rfl⟩ := Option.map_eq_some_iff.mp hreply
        obtain ⟨hgood, hbad⟩ :=
          ((directoryLoop_cases (not_lt.mp hshort) 0 turns hloop).record filesKept).spec
        exact ⟨hgood, fun _ ↦ hbad⟩
      · rw [Option.isSome_map]
        exact directoryLoop_isSome 0 turns ⟨turn, hturn, by rwa [Nat.zero_add]⟩
  case poll =>
    subst hreply
    unfold poll
    split_ifs
    · exact ⟨(fun hok ↦ by cases hok), fun hasked ↦ by cases hasked⟩
    · split
      · exact ⟨(fun hok ↦ by cases hok), fun hasked ↦ by cases hasked⟩
      · cases result with
        | error error =>
          refine ⟨(fun hok ↦ by simp [record] at hok), fun _ _ ↦ ⟨fun entry hentry ↦ ?_, rfl⟩⟩
          obtain ⟨_, _, rfl⟩ := mem_map.mp hentry
          rfl
        | ok _ => exact ⟨fun _ ↦ ⟨settle_mask _, settle_count _⟩, fun _ hne ↦ absurd rfl hne⟩
  case resolve =>
    subst hreply
    unfold resolve
    split_ifs
    · exact ⟨(fun hok ↦ by cases hok), fun hasked ↦ by cases hasked⟩
    · exact ⟨(fun hok ↦ by cases hok), fun hasked ↦ by cases hasked⟩
    · obtain ⟨hgood, hbad⟩ := ((resolved_cases family a).record resolveKept).spec
      exact ⟨hgood, fun _ ↦ hbad⟩

end DotnetPal.Boundary
