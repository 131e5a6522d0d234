import DotnetPal.Port

/-!
# Lines of a file

`Lines` streams a file through a buffer of 2048 bytes. `next` answers the next line without its
terminator; where the buffer is full of one unfinished line, it is dropped and the rest of the line
skipped. A reader is modelled by the bytes of the buffer it has not handed out, which are at the
front of the buffer whenever it reads more.
-/

namespace DotnetPal.Linux

open List

def newline : UInt8 := 10

def bufferSize : ℕ := 2048

/-- The reader with what its file still has, and the reads so far. -/
structure Lines where
  pending : List UInt8
  rest : List UInt8
  eof : Bool
  skipping : Bool
  reads : ℕ

namespace Lines

def opened (content : List UInt8) : Lines := ⟨[], content, false, false, 0⟩

variable (size : ℕ → ℕ)

/-- Reads once, at most the bytes given for this read, but one where there is one; the answer tells
whether bytes came. An interrupted read is made again and changes nothing. -/
def fill (l : Lines) : Bool × Lines :=
  if l.pending.length = bufferSize then (false, l)
  else if l.rest = [] then (false, { l with eof := true })
  else
    let count := max 1 (min (size l.reads) (bufferSize - l.pending.length))
    (true, ⟨l.pending ++ l.rest.take count, l.rest.drop count, l.eof, l.skipping, l.reads + 1⟩)

/-- Gives up a buffer that holds one unfinished line. -/
def discard (l : Lines) : Lines := { l with pending := [], skipping := true }

/-- What each turn of `next` makes less. -/
def weight (l : Lines) : ℕ := 2 * l.rest.length + l.pending.length + if l.eof then 0 else 1

variable {size}

theorem weight_fill {l : Lines} (h : (fill size l).1 = true) : (fill size l).2.weight < l.weight := by
  unfold fill at h ⊢
  split_ifs at h ⊢ with hfull hrest
  have hpos := length_pos_iff.2 hrest
  simp only [weight, length_append, length_take, length_drop]
  omega

theorem fill_of_false {l : Lines} (h : (fill size l).1 = false) :
    fill size l = (false, l) ∧ l.pending.length = bufferSize ∨
      fill size l = (false, { l with eof := true }) ∧ l.pending.length ≠ bufferSize ∧ l.rest = [] := by
  unfold fill at h ⊢
  split_ifs at h ⊢ with hfull hrest
  · exact .inl ⟨rfl, hfull⟩
  · exact .inr ⟨rfl, hfull, hrest⟩

variable (size)

def next (l : Lines) : Option (List UInt8) × Lines :=
  match _h : l.pending.findIdx? (· = newline) with
  | some offset =>
    let left := { l with pending := l.pending.drop (offset + 1) }
    if l.skipping then next { left with skipping := false } else (some (l.pending.take offset), left)
  | none =>
    if _hend : l.eof = true then
      if l.pending = [] ∨ l.skipping then (none, l) else (some l.pending, { l with pending := [] })
    else if _hfill : (fill size l).1 = true then next (fill size l).2
    else if _heof : (fill size l).2.eof = true then next (fill size l).2
    else if _hmore : (fill size (fill size l).2.discard).1 = true then
      next (fill size (fill size l).2.discard).2
    else (none, (fill size (fill size l).2.discard).2)
termination_by l.weight
decreasing_by
  · have hlt := (findIdx?_eq_some_iff_findIdx_eq.1 _h).1
    simp only [weight, length_drop]
    omega
  · exact weight_fill _hfill
  · rcases fill_of_false (by simpa using _hfill) with ⟨heq, _⟩ | ⟨heq, _⟩
    · rw [heq] at _heof
      exact absurd _heof _hend
    · simp [heq, weight, _hend]
  · rcases fill_of_false (by simpa using _hfill) with ⟨heq, _⟩ | ⟨heq, _⟩
    · refine lt_of_lt_of_le (weight_fill _hmore) ?_
      simp [heq, weight, discard]
    · simp [heq] at _heof

/-! ## The lines of a text -/

/-- The last line counts when it is not empty. -/
def lines (text : List UInt8) : List (List UInt8) :=
  if (text.splitOn newline).getLast? = some [] then (text.splitOn newline).dropLast else text.splitOn newline

/-- The lines that fit the buffer together with their terminator. -/
def expected (text : List UInt8) : List (List UInt8) := (lines text).filter (·.length < bufferSize)

/-- What is behind the first line. -/
def behind (text : List UInt8) : List UInt8 := (text.dropWhile (· ≠ newline)).drop 1

section

variable {line text : List UInt8} (hline : newline ∉ line)
include hline

theorem expected_line :
    expected (line ++ newline :: text) = (if line.length < bufferSize then [line] else [])
      ++ expected text := by
  have hlines : lines (line ++ newline :: text) = line :: lines text := by
    obtain ⟨part, parts, hparts⟩ := exists_cons_of_ne_nil (splitOn_ne_nil newline text)
    unfold lines
    rw [splitOn_append_cons_self_of_not_mem hline, hparts, getLast?_cons_cons, dropLast_cons_cons]
    split <;> rfl
  unfold expected
  rw [hlines, filter_cons]
  simp only [decide_eq_true_eq]
  split <;> rfl

theorem expected_last : expected line = if line ≠ [] ∧ line.length < bufferSize then [line] else [] := by
  unfold expected lines
  rw [splitOn_eq_singleton hline]
  by_cases hnil : line = []
  · simp [hnil]
  · simp [hnil, filter_cons]

theorem behind_append : behind (line ++ text) = behind text := by
  have hnot : ∀ byte ∈ line, decide (byte ≠ newline) = true := fun byte hbyte ↦
    decide_eq_true fun h ↦ hline (h ▸ hbyte)
  unfold behind
  rw [dropWhile_append_of_pos hnot]

theorem behind_line : behind (line ++ newline :: text) = text := by
  rw [behind_append hline]
  simp [behind]

theorem behind_last : behind line = [] := by
  simpa [behind] using @behind_append line [] hline

/-- A line that fills the buffer is not among those expected, wherever it ends. -/
theorem expected_long (hlong : bufferSize ≤ line.length) :
    expected (line ++ text) = expected (behind text) := by
  by_cases hmem : newline ∈ text
  · obtain ⟨more, text, rfl, hmore⟩ := eq_append_cons_of_mem hmem
    rw [behind_line hmore, ← append_assoc, expected_line (by simp [hline, hmore]),
      if_neg (by simp; omega), nil_append]
  · rw [behind_last hmem, expected_last (by simp [hline, hmem]), if_neg (by simp; omega)]
    rfl

end

/-! ## What the reader has still to answer -/

def future (l : Lines) : List (List UInt8) :=
  expected (if l.skipping then behind (l.pending ++ l.rest) else l.pending ++ l.rest)

structure Sound (l : Lines) : Prop where
  fits : l.pending.length ≤ bufferSize
  ended : l.eof = true → l.rest = [] ∧ l.pending.length < bufferSize

variable {size} {l : Lines}

theorem future_fill (h : (fill size l).1 = true) : (fill size l).2.future = l.future := by
  unfold fill at h ⊢
  split_ifs at h ⊢
  simp only [future, append_assoc, take_append_drop]

theorem Sound.fill (hs : Sound l) (hopen : l.eof ≠ true) (h : (fill size l).1 = true) :
    Sound (fill size l).2 := by
  have hfits := hs.fits
  unfold Lines.fill at h ⊢
  split_ifs at h ⊢
  refine ⟨?_, fun heof ↦ absurd heof hopen⟩
  simp only [length_append, length_take]
  omega

/-- A full buffer without a terminator is dropped, and nothing that is expected with it. -/
theorem future_discard (hline : newline ∉ l.pending) (hfull : l.pending.length = bufferSize) :
    l.discard.future = l.future := by
  change expected (behind l.rest) = expected _
  split_ifs
  · rw [behind_append hline]
  · rw [expected_long hline hfull.ge]

theorem notMem_pending (h : l.pending.findIdx? (· = newline) = none) : newline ∉ l.pending := fun hmem ↦ by
  simpa using findIdx?_eq_none_iff.1 h newline hmem

theorem future_line {offset : ℕ} (hs : Sound l) (h : l.pending.findIdx? (· = newline) = some offset) :
    l.future = (if l.skipping then [] else [l.pending.take offset])
      ++ expected (l.pending.drop (offset + 1) ++ l.rest) := by
  obtain ⟨hlt, hat, hold⟩ := findIdx?_eq_some_iff_getElem.1 h
  have hfits := hs.fits
  have hline : newline ∉ l.pending.take offset := fun hmem ↦ by
    obtain ⟨i, hi, heq⟩ := mem_take_iff_getElem.1 hmem
    exact hold i (by omega) (decide_eq_true heq)
  have htext : l.pending ++ l.rest = l.pending.take offset ++
    newline :: (l.pending.drop (offset + 1) ++ l.rest) := by
    rw [← cons_append, ← append_assoc, ← of_decide_eq_true hat, getElem_cons_drop, take_append_drop]
  rw [future, htext]
  split_ifs
  · rw [behind_line hline, nil_append]
  · rw [expected_line hline, if_pos (by rw [length_take]; omega)]

theorem Sound.shorter {pending : List UInt8} (hs : Sound l) (h : pending.length ≤ l.pending.length)
    (skipping : Bool) :
    Sound ⟨pending, l.rest, l.eof, skipping, l.reads⟩ :=
  ⟨h.trans hs.fits, fun heof ↦ ⟨(hs.ended heof).1, h.trans_lt (hs.ended heof).2⟩⟩

/-- A call answers the next line that is expected, and `None` only where none is left. -/
structure Answers (l : Lines) (answer : Option (List UInt8) × Lines) : Prop where
  sound : Sound answer.2
  line : l.future = answer.1.toList ++ answer.2.future
  none : answer.1 = none → l.future = []

variable {answer : Option (List UInt8) × Lines}

theorem Answers.congr {before : Lines} (h : Answers l answer)
    (hfuture : before.future = l.future) : Answers before answer :=
  ⟨h.sound, hfuture.trans h.line, fun hnone ↦ hfuture.trans (h.none hnone)⟩

theorem Answers.eq (h : Answers l answer) :
    answer.1 = l.future.head? ∧ answer.2.future = l.future.tail := by
  have hline := h.line
  cases hanswer : answer.1 with
  | none =>
    rw [h.none hanswer, hanswer] at hline
    rw [h.none hanswer]
    exact ⟨rfl, hline.symm⟩
  | some line =>
    rw [hline, hanswer]
    exact ⟨rfl, rfl⟩

theorem next_answers (hs : Sound l) : Answers l (next size l) := by
  fun_induction next size l with
  | case1 l offset h left hskip ih =>
    refine (ih (hs.shorter (by simp [left]) false)).congr ?_
    rw [future_line hs h, if_pos hskip]
    rfl
  | case2 l offset h left hskip =>
    refine ⟨hs.shorter (by simp) l.skipping, ?_, by simp⟩
    rw [future_line hs h, if_neg hskip, future, if_neg hskip]
    rfl
  | case3 l h hend hempty =>
    have hfuture : l.future = [] := by
      have hline := notMem_pending h
      rw [future, (hs.ended hend).1, append_nil]
      split_ifs with hskip
      · rw [behind_last hline]
        rfl
      · rw [hempty.resolve_right hskip]
        rfl
    exact ⟨hs, rfl, fun _ ↦ hfuture⟩
  | case4 l h hend hempty =>
    obtain ⟨hnil, hskip⟩ := not_or.1 hempty
    obtain ⟨hrest, hlen⟩ := hs.ended hend
    refine ⟨hs.shorter (by simp) l.skipping, ?_, by simp⟩
    simp only [future, hrest, if_neg hskip, append_nil]
    rw [expected_last (notMem_pending h), if_pos ⟨hnil, hlen⟩]
    rfl
  | case5 l h hend hfill ih => exact (ih (hs.fill hend hfill)).congr (future_fill hfill).symm
  | case6 l h hend hfill heof ih =>
    rcases fill_of_false (by simpa using hfill) with ⟨heq, _⟩ | ⟨heq, hlen, hrest⟩
    · rw [heq] at heof
      exact absurd heof hend
    · rw [heq] at ih ⊢
      exact (ih ⟨hs.fits, fun _ ↦ ⟨hrest, hs.fits.lt_of_ne hlen⟩⟩).congr rfl
  | case7 l h hend hfill heof hmore ih =>
    rcases fill_of_false (by simpa using hfill) with ⟨heq, hfull⟩ | ⟨heq, _⟩
    · rw [heq] at hmore ih ⊢
      have hdiscard : Sound l.discard := hs.shorter (Nat.zero_le _) true
      exact ((ih (hdiscard.fill hend hmore)).congr (future_fill hmore).symm).congr
        (future_discard (notMem_pending h) hfull).symm
    · simp [heq] at heof
  | case8 l h hend hfill heof hmore =>
    rcases fill_of_false (by simpa using hfill) with ⟨heq, hfull⟩ | ⟨heq, _⟩
    · rw [heq] at hmore ⊢
      rcases fill_of_false (by simpa using hmore) with ⟨_, hlen⟩ | ⟨heq, _, hrest⟩
      · cases hlen
      · have hfuture : l.future = [] := by
          rw [← future_discard (notMem_pending h) hfull, future, show l.discard.rest = [] from hrest]
          rfl
        rw [heq]
        exact ⟨⟨Nat.zero_le _, fun _ ↦ ⟨hrest, Nat.zero_lt_succ _⟩⟩,
          (future_discard (notMem_pending h) hfull).symm, fun _ ↦ hfuture⟩
    · simp [heq] at heof

/-- The reader after some calls. -/
def calls (size : ℕ → ℕ) (content : List UInt8) : ℕ → Lines
  | 0 => opened content
  | k + 1 => (next size (calls size content k)).2

/-- Every call answers the line of its number, however the content comes, and `None` behind
the last one. -/
theorem next_exact (size : ℕ → ℕ) (content : List UInt8) (k : ℕ) :
    (next size (calls size content k)).1 = (expected content)[k]? := by
  have hrun : Sound (calls size content k) ∧ (calls size content k).future = (expected content).drop k := by
    induction k with
    | zero => exact ⟨⟨Nat.zero_le _, by simp [calls, opened]⟩, rfl⟩
    | succ k ih =>
      have hanswer := @next_answers size _ ih.1
      exact ⟨hanswer.sound, by rw [calls, hanswer.eq.2, ih.2, tail_drop]⟩
  rw [(next_answers hrun.1).eq.1, hrun.2, head?_drop]

variable {α : Type} {f : List UInt8 → Option α}

/-- Reads lines until one is taken. -/
def find (size : ℕ → ℕ) (f : List UInt8 → Option α) : ℕ → Lines → Option α
  | 0, _ => none
  | fuel + 1, l => (next size l).1.bind fun line ↦ (f line).or (find size f fuel (next size l).2)

theorem find_eq {fuel : ℕ} (hs : Sound l) (hfuel : l.future.length < fuel) :
    find size f fuel l = l.future.findSome? f := by
  induction fuel generalizing l with
  | zero => omega
  | succ fuel ih =>
    have hnext := @next_answers size _ hs
    have hrest := ih hnext.sound
    rw [find, hnext.eq.1]
    rw [hnext.eq.2] at hrest
    cases hfuture : l.future with
    | nil => rfl
    | cons line rest =>
      rw [hfuture] at hfuel hrest
      rw [head?_cons, Option.bind_some, hrest (by simpa using hfuel), findSome?_cons]
      cases f line <;> rfl

/-- The first line that fits and is wanted is taken. -/
theorem find_exact (content : List UInt8) (n : ℕ) :
    find size f ((expected content).length + 1 + n) (opened content) = (expected content).findSome? f :=
  find_eq ⟨Nat.zero_le _, nofun⟩ (Nat.le_add_right _ n)

end Lines

end DotnetPal.Linux
