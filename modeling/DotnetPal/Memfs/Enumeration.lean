import DotnetPal.Memfs.Guarantees

/-!
# Reading directories

A directory handle holds the listing its directory had when it was opened, packed into bytes.
Whatever the other calls of a run do to the directory, the reads of the handle unpack that listing:
each entry once, in the order of the names, and then nothing more. A read whose buffer is too small
leaves the handle where it is.
-/

open Std List

namespace DotnetPal.Memfs

open Programs OrderedMap

attribute [local instance] lexOrd

/-! ## Names in order -/

/-- The order of the entries is the order of the bytes of their names. -/
theorem lt_of_compare_bytes {a b : List UInt8} (h : compare a b = .lt) : a < b := by
  rw [List.compare_eq_compareLex] at h
  induction a generalizing b with
  | nil =>
    cases b with
    | nil => cases h
    | cons byte rest => exact List.nil_lt_cons byte rest
  | cons byte rest ih =>
    cases b with
    | nil => cases h
    | cons j more =>
      rw [List.compareLex_cons_cons, Ordering.then_eq_lt] at h
      refine List.cons_lt_cons_iff.mpr (h.imp compareOfLessAndEq_eq_lt.mp fun ⟨heq, hrest⟩ ↦ ⟨?_, ih hrest⟩)
      exact LawfulEqCmp.eq_of_compare heq

variable {next : ℕ}

namespace Files

/-! ## Listings -/

/-- The bytes of one entry in a listing: its kind, the length of its name, and the name. -/
def packed (entry : Bytes × UInt8) : Bytes := entry.2 :: UInt8.ofNat entry.1.length :: entry.1

/-- The code of the kind of a node. -/
def kindCode (s : State) (id : ℕ) : UInt8 := ((s.nodes[id]?).map fun node ↦ node.body.kind.code).getD 0

/-- The entries of a directory with the codes of their kinds, in the order of the names. -/
def listed (s : State) (entries : Entries) : List (Bytes × UInt8) :=
  entries.toList.map fun entry ↦ (entry.1, kindCode s entry.2)

theorem kindCode_of_ok {s : State} {id : ℕ} {kind : Files.NodeKind} (h : s.kind id = .ok kind) :
    kindCode s id = kind.code := by
  obtain ⟨node, hnode, h⟩ := except_bind_eq_ok_iff.mp h
  cases h
  rw [kindCode, Result.required_eq_ok_iff.mp hnode]
  rfl

variable {bytes : Bytes}

/-- A listing packs the entries one after another. -/
theorem listing_eq_ok {s : State} {entries : Entries} (h : listing s entries = .ok bytes) :
    bytes = (listed s entries).flatMap packed := by
  unfold listing at h
  -- The loop extends what it packed so far.
  have hloop : ∀ (list : List (Bytes × ℕ)) (old bytes : Bytes), list.foldlM (fun listed e ↦ do
        let kind ← s.kind e.2
        return listed ++ kind.code :: UInt8.ofNat e.1.length :: e.1) old = (.ok bytes : Result Bytes) →
      bytes = old ++ (list.map fun e ↦ (e.1, kindCode s e.2)).flatMap packed := by
    intro list
    induction list with
    | nil =>
      intro old bytes hfold
      cases hfold
      simp
    | cons e list ih =>
      intro old bytes hfold
      rw [foldlM_cons] at hfold
      obtain ⟨middle, hmiddle, hfold⟩ := except_bind_eq_ok_iff.mp hfold
      obtain ⟨kind, hkind, hmiddle⟩ := except_bind_eq_ok_iff.mp hmiddle
      cases hmiddle
      rw [ih _ _ hfold, map_cons, flatMap_cons, kindCode_of_ok hkind, packed, append_assoc]
  exact hloop _ [] _ h

/-- The entry at the front of a packed listing is read back. -/
theorem entryAt_packed {e : Bytes × UInt8} {rest : List (Bytes × UInt8)}
    (hdrop : bytes.drop next = (e :: rest).flatMap packed) (hlen : e.1.length ≤ Files.maxEntryName)
    (cap : ℕ) :
    entryAt bytes next cap =
      if e.1.length ≤ cap then .ok e else .error Error.invalidArgument := by
  have hcode : (UInt8.ofNat e.1.length).toNat = e.1.length := by
    rw [UInt8.toNat_ofNat']
    exact Nat.mod_eq_of_lt (Nat.lt_of_le_of_lt hlen (by decide))
  have hnext : ¬bytes.length < next := by
    intro hlt
    rw [drop_eq_nil_of_le hlt.le, flatMap_cons] at hdrop
    cases hdrop
  unfold entryAt
  rw [if_neg hnext, hdrop, flatMap_cons, packed]
  simp only [cons_append, hcode, length_append, take_left]
  rw [if_neg (by omega)]
  by_cases hfits : e.1.length ≤ cap
  · rw [if_neg (Nat.not_lt.mpr hfits), if_pos hfits]
  · rw [if_pos (Nat.not_le.mp hfits), if_neg hfits]

theorem entryAt_end (hnext : next ≤ bytes.length) (hdrop : bytes.drop next = [])
    (cap : ℕ) : entryAt bytes next cap = .error Error.notFound := by
  unfold entryAt
  rw [if_neg (Nat.not_lt.mpr hnext), hdrop]

end Files

/-! ## Runs around a directory handle -/

/-- What a call answers. -/
def answer (env : Env) (call : Call) (s : State) : Except Fault Reply :=
  match exec env call s with
  | .ok reply _ => .ok reply
  | .error fault _ => .error fault

/-- The capacity of a read of the handle. -/
def Call.reads? (dir : ℕ) : Call → Option ℕ
  | .readDirectory handle capacity => if handle = dir then some capacity else none
  | _ => none

theorem Call.eq_of_reads? {dir cap : ℕ} {call : Call} (h : call.reads? dir = some cap) :
    call = .readDirectory dir cap := by
  cases call with
  | readDirectory handle j =>
    simp only [Call.reads?] at h
    split at h
    · rename_i heq
      rw [heq, Option.some.inj h]
    · cases h
  | _ => cases h

/-- Calls that an honest outside and honest consumers let happen one after another, none of which
closes the handle. -/
def Interleaved (dir : ℕ) : List (Env × Call) → State → Prop
  | [], _ => True
  | (env, call) :: calls, s => env.Honest s ∧ call.Trusted s ∧ call ≠ .closeDirectory dir ∧
      Interleaved dir calls (after (exec env call) s.acquire)

/-- The capacities the reads of the handle offer, in order. -/
def capacities (dir : ℕ) (calls : List (Env × Call)) : List ℕ := calls.filterMap (·.2.reads? dir)

/-- The answers to the reads of the handle, in order. -/
def reads (dir : ℕ) : List (Env × Call) → State → List (Except Fault Reply)
  | [], _ => []
  | (env, call) :: calls, s =>
    let later := reads dir calls (after (exec env call) s.acquire)
    if (call.reads? dir).isSome then answer env call s.acquire :: later else later

/-- The answers that read a listing entry by entry. -/
def enumerate : List (Bytes × UInt8) → List ℕ → List (Except Fault Reply)
  | _, [] => []
  | [], _ :: capacities => .error Error.notFound :: enumerate [] capacities
  | entry :: entries, capacity :: capacities =>
    if entry.1.length ≤ capacity then .ok (.entry entry.1 entry.2) :: enumerate entries capacities
    else .error Error.invalidArgument :: enumerate (entry :: entries) capacities

namespace State

variable {s s' : State} {env : Env} {call : Call} {dir : ℕ} {entries : List (Bytes × UInt8)}

/-- The handle has still to read the entries. -/
def Unread (s : State) (dir : ℕ) (entries : List (Bytes × UInt8)) : Prop :=
  ∃ (listing : Bytes) (next : ℕ), s.handles[dir]? = some (.directory listing next) ∧
    next ≤ listing.length ∧ listing.drop next = entries.flatMap Files.packed

variable (h : s.Unread dir entries)
include h

theorem Unread.of_eq (hhandle : s'.handles[dir]? = s.handles[dir]?) : s'.Unread dir entries := by
  obtain ⟨listing, next, hlisting, hnext⟩ := h
  exact ⟨listing, next, hhandle.trans hlisting, hnext⟩

/-- A call that does not read or close the handle leaves it alone. -/
theorem Unread.of_deed {reply : Reply} (honest : env.Honest s)
    (hread : call.reads? dir = none) (hclose : call ≠ .closeDirectory dir)
    (hdeed : Deed env s call reply s') : s'.Unread dir entries := by
  apply h.of_eq
  obtain ⟨listing, next, hhandle, -⟩ := h
  cases Boxed.of_deed hdeed with
  | same hhandles => rw [hhandles]
  | opened handle _ hhandles =>
    rw [hhandles, get_insert, if_neg]
    rintro rfl
    rw [honest.box_fresh] at hhandle
    cases hhandle
  | read j cap _ _ _ hcall _ _ hhandles =>
    rw [hhandles, get_insert, if_neg]
    rintro rfl
    simp [hcall, Call.reads?] at hread
  | closed addr handle hx hdir _ hhandles =>
    rw [hhandles, get_erase, if_neg]
    rintro rfl
    rw [hx] at hhandle
    exact hclose (hdir _ _ (Option.some.inj hhandle))

theorem Unread.after_other (hsteady : s.Steady) (honest : env.Honest s)
    (htrusted : call.Trusted s) (hread : call.reads? dir = none) (hclose : call ≠ .closeDirectory dir) :
    (after (exec env call) s).Unread dir entries := by
  refine hsteady.after_of_deed honest htrusted (h.of_deed honest hread hclose) h fun hgave ↦ ?_
  obtain ⟨id, granted, node, locks, given, _, _, rfl, _⟩ := hgave.given
  exact h.of_eq rfl

omit h

/-- A read of the handle is a look at its listing. -/
theorem exec_readDirectory (halign : dir ≠ 0 ∧ dir % handleAlign = 0) {listing : Bytes}
    (hhandle : s.handles[dir]? = some (.directory listing next)) (cap : ℕ) :
    exec env (.readDirectory dir cap) s =
      match Files.entryAt listing next cap with
      | .ok (name, kind) => .ok (.entry name kind)
          (s.addHandle dir (.directory listing (next + 2 + name.length)))
      | .error fault => .error fault s := by
  have hborrow : Files.directoryHandle s dir = .ok (listing, next) := by
    unfold Files.directoryHandle borrow
    rw [if_neg (by simp [halign]), hhandle]
    rfl
  have hlook : reading (ε := Fault) (Files.directoryHandle · dir) s = .ok (listing, next) s :=
    reading_of_ok hborrow
  cases he : Files.entryAt listing next cap with
  | ok e =>
    have hrun : Files.readDirectory dir cap s =
        .ok e (s.addHandle dir (.directory listing (next + 2 + e.1.length))) :=
      (bind_of_ok hlook).trans (bind_of_ok (reading_of_ok he))
    exact map_of_ok hrun
  | error fault =>
    have hrun : Files.readDirectory dir cap s = .error fault s :=
      (bind_of_ok hlook).trans (bind_of_error (reading_of_error he))
    exact map_of_error hrun

/-- A read at the end finds nothing and leaves everything alone. -/
theorem Unread.read_nil (h : s.Unread dir []) (halign : dir ≠ 0 ∧ dir % handleAlign = 0)
    (cap : ℕ) : exec env (.readDirectory dir cap) s = .error Error.notFound s := by
  obtain ⟨listing, next, hhandle, hnext, hdrop⟩ := h
  rw [exec_readDirectory halign hhandle, Files.entryAt_end hnext hdrop]

/-- A read takes the first entry if the buffer holds it, and leaves everything alone if not. -/
theorem Unread.read_cons {e : Bytes × UInt8} (h : s.Unread dir (e :: entries))
    (halign : dir ≠ 0 ∧ dir % handleAlign = 0) (hshort : e.1.length ≤ Files.maxEntryName)
    (cap : ℕ) :
    (e.1.length ≤ cap ∧ ∃ s', exec env (.readDirectory dir cap) s =
      .ok (.entry e.1 e.2) s' ∧ s'.Unread dir entries) ∨
    (cap < e.1.length ∧ exec env (.readDirectory dir cap) s = .error Error.invalidArgument s) := by
  obtain ⟨listing, next, hhandle, hnext, hdrop⟩ := h
  rw [exec_readDirectory halign hhandle, Files.entryAt_packed hdrop hshort]
  by_cases hfits : e.1.length ≤ cap
  · refine .inl ⟨hfits, _, by rw [if_pos hfits], listing, _, (get_insert ..).trans (if_pos rfl), ?_, ?_⟩
    · have hlen := congrArg length hdrop
      rw [length_drop, flatMap_cons, length_append, Files.packed] at hlen
      simp only [length_cons] at hlen
      omega
    · rw [Nat.add_assoc, ← drop_drop, hdrop, flatMap_cons, Files.packed, Nat.add_comm]
      simp
  · exact .inr ⟨Nat.not_le.mp hfits, by rw [if_neg hfits]⟩

/-- The reads of a run enumerate what the handle has still to read. -/
theorem Unread.reads_eq (h : s.Unread dir entries) (hsteady : s.Steady)
    (halign : dir ≠ 0 ∧ dir % handleAlign = 0)
    (hshort : ∀ e ∈ entries, e.1.length ≤ Files.maxEntryName) {calls : List (Env × Call)}
    (hcalls : Interleaved dir calls s) :
    reads dir calls s = enumerate entries (capacities dir calls) := by
  induction calls generalizing s entries with
  | nil => cases entries <;> rfl
  | cons step calls ih =>
    obtain ⟨env, call⟩ := step
    obtain ⟨honest, htrusted, hclose, hcalls⟩ := hcalls
    rw [hsteady.acquire_eq] at hcalls
    have hnew := hsteady.after_exec honest htrusted
    simp only [reads, capacities, filterMap_cons, hsteady.acquire_eq]
    cases hread : call.reads? dir with
    | none => exact ih (h.after_other hsteady honest htrusted hread hclose) hnew hshort hcalls
    | some cap =>
      obtain rfl : call = .readDirectory dir cap := Call.eq_of_reads? hread
      simp only [Option.isSome_some, if_true]
      cases entries with
      | nil =>
        have hrun : exec env (.readDirectory dir cap) s = _ := h.read_nil halign cap
        rw [after_of_error hrun] at hcalls ⊢
        rw [answer, hrun, enumerate, ih h hsteady hshort hcalls]
        rfl
      | cons e entries =>
        have hcases : (_ ∧ ∃ s', exec env (.readDirectory dir cap) s = _ ∧ _) ∨ _ :=
          h.read_cons halign (hshort e mem_cons_self) cap
        rcases hcases with ⟨hfits, s', hrun, hunread⟩ | ⟨hsmall, hrun⟩
        · rw [after_of_ok hrun] at hcalls hnew ⊢
          rw [answer, hrun, enumerate, if_pos hfits,
            ih hunread hnew (fun j hj ↦ hshort j (mem_cons_of_mem _ hj)) hcalls]
          rfl
        · rw [after_of_error hrun] at hcalls ⊢
          rw [answer, hrun, enumerate, if_neg (Nat.not_le.mpr hsmall), ih h hsteady hshort hcalls]
          rfl

/-! ## Every directory -/

/-- A directory that is opened is where its path leads, and the handle holds its entries. -/
theorem openDirectory_eq_ok {path : Bytes} {reply : Reply}
    (h : exec env (.openDirectory path) s = .ok reply s') :
    reply = .handle env.box ∧ ∃ p node parent entries x, s.walk path .follow = .ok p ∧
      p.node = some node ∧ s.nodes[node]? = some x ∧ x.body = .directory parent entries ∧
      s' = s.addHandle env.box (.directory ((Files.listed s entries).flatMap Files.packed) 0) := by
  obtain ⟨box, hrun, rfl⟩ := map_eq_ok_iff.mp h
  obtain ⟨listing, middle, hlook, hhandle⟩ := bind_eq_ok_iff.mp hrun
  obtain ⟨hsnapshot, rfl⟩ := reading_eq_ok_iff.mp hlook
  obtain ⟨p, hwalk, hsnapshot⟩ := except_bind_eq_ok_iff.mp hsnapshot
  obtain ⟨node, hnode, hsnapshot⟩ := except_bind_eq_ok_iff.mp hsnapshot
  obtain ⟨entries, hentries, hsnapshot⟩ := except_bind_eq_ok_iff.mp hsnapshot
  obtain ⟨x, hx, hentries⟩ := except_bind_eq_ok_iff.mp hentries
  split at hsnapshot
  · split at hentries
    · rename_i parent inside hbody
      cases hentries
      cases hhandle
      exact ⟨rfl, p, node, parent, entries, x, hwalk, Result.required_eq_ok_iff.mp hnode,
        Result.required_eq_ok_iff.mp hx, hbody, by rw [Files.listing_eq_ok hsnapshot]⟩
    · cases hentries
  · cases hsnapshot

/-- The reads of a handle on a directory, in any run that does not close it, answer the entries the
directory had when it was opened, in the order of their names and with the kinds they had, and then
that there is nothing more. A read whose buffer does not hold its entry is refused, and the entry
comes with the next one whose buffer does. -/
theorem enumeration_of_reachable (hreach : system.Reachable s) (honest : env.Honest s) {path : Bytes}
    (hopen : exec env (.openDirectory path) s = .ok (.handle dir) s') :
    ∃ place node entries, s.walk path .follow = .ok place ∧ place.node = some node ∧
      (∀ name kind, (name, kind) ∈ entries ↔ ∃ id found, s.entryNode node name = some id ∧
        s.nodes[id]? = some found ∧ kind = found.body.kind.code) ∧
      entries.Pairwise (fun first second ↦ first.1 < second.1) ∧
      ∀ calls, Interleaved dir calls s' → reads dir calls s' =
        enumerate entries (capacities dir calls) := by
  have hsteady := steady_of_reachable hreach
  obtain ⟨hbox, place, node, parent, entries, found, hwalk, hnode, hfound, hbody, rfl⟩ :=
    openDirectory_eq_ok hopen
  cases hbox
  have hentry : ∀ name id, s.entryNode node name = some id ↔ entries[name]? = some id := by
    intro name id
    simp [entryNode, hfound, hbody, Body.directory?]
  refine ⟨place, node, Files.listed s entries, hwalk, hnode, fun name kind ↦ ?_, ?_, fun calls hcalls ↦ ?_⟩
  · simp only [Files.listed, mem_map, Prod.mk.injEq, Prod.exists,
      ExtTreeMap.mem_toList_iff_getElem?_eq_some]
    constructor
    · rintro ⟨_, id, hid, rfl, rfl⟩
      obtain ⟨child, hchild⟩ := mem_nodes_iff.mp (hsteady.tree.entry_live node _ id ((hentry _ id).mpr hid))
      exact ⟨id, child, (hentry _ id).mpr hid, hchild, by rw [Files.kindCode, hchild]; rfl⟩
    · rintro ⟨id, child, hid, hchild, rfl⟩
      exact ⟨name, id, (hentry name id).mp hid, rfl, by rw [Files.kindCode, hchild]; rfl⟩
  · rw [Files.listed, pairwise_map]
    exact ExtTreeMap.ordered_keys_toList.imp lt_of_compare_bytes
  · have htrusted : (Call.openDirectory path).Trusted s :=
      ⟨fun _ hhandle ↦ (Option.some_ne_none _ hhandle.symm).elim, fun _ _ _ _ hstore ↦
        Call.noConfusion hstore⟩
    have hfinal := hsteady.after_exec honest htrusted
    rw [after_of_ok hopen] at hfinal
    refine Unread.reads_eq ⟨_, 0, (get_insert ..).trans (if_pos rfl), Nat.zero_le _, rfl⟩ hfinal
      honest.box_value
      (fun entry hmem ↦ ?_) hcalls
    obtain ⟨⟨name, id⟩, hid, rfl⟩ := mem_map.mp hmem
    have hname := (hentry name id).mpr (ExtTreeMap.mem_toList_iff_getElem?_eq_some.mp hid)
    exact (hsteady.tree.names_valid node name id hname).2.1

/-- The root with one directory in it. -/
def inhabited : State := after (exec (granting 8) (.createDirectory [47, 97] 0o777)) first

theorem reachable_inhabited : system.Reachable inhabited :=
  reachable_of_granted (.of_start rfl)
    (show granted [(8, .createDirectory [47, 97] 0o777)] first = some inhabited from rfl)

theorem interleaved_cons {box : ℕ} {calls : List (Env × Call)} (h : callable box call s)
    (hclose : call ≠ .closeDirectory dir)
    (hcalls : Interleaved dir calls (after (exec (granting box) call) s.acquire)) :
    Interleaved dir ((granting box, call) :: calls) s :=
  ⟨(allowed_of_callable h).1, (allowed_of_callable h).2, hclose, hcalls⟩

/-- A buffer that is too small, and a name that is removed before it is read. -/
def browsing : List (Env × Call) :=
  [.readDirectory 40 0, .readDirectory 40 1, .remove [47, 98], .readDirectory 40 1, .readDirectory 40 1,
    .readDirectory 40 1].map (granting 48, ·)

theorem enumeration_of_reachable_populated : ∃ opened entries,
    exec (granting 40) (.openDirectory [47]) populated = .ok (.handle 40) opened ∧
    reads 40 browsing opened = enumerate entries [0, 1, 1, 1, 1] ∧
    enumerate entries [0, 1, 1, 1, 1] =
      [.error Error.invalidArgument, .ok (.entry [97] 2), .ok (.entry [98] 3),
      .ok (.entry [100] 1), .error Error.notFound] := by
  have hallowed := allowed_of_callable (show callable 40 (.openDirectory [47]) populated from rfl)
  have hopen : exec (granting 40) (.openDirectory [47]) populated = .ok (.handle 40) _ := rfl
  obtain ⟨_, _, entries, _, _, _, _, hreads⟩ :=
    enumeration_of_reachable reachable_populated hallowed.1 hopen
  have hrun :=
    hreads browsing (interleaved_cons rfl nofun (interleaved_cons rfl nofun (interleaved_cons rfl nofun
    (interleaved_cons rfl nofun (interleaved_cons rfl nofun (interleaved_cons rfl nofun trivial))))))
  exact ⟨_, entries, hopen, hrun, hrun.symm.trans rfl⟩

end State

end DotnetPal.Memfs
