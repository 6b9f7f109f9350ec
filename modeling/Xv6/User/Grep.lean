/-
  The pattern matcher and the loop of `user/grep.c`.

  A string is the list of its characters before the NUL.  `matchstar` is given `matchhere` on the rest
  of the pattern as a function, so that both recursions are structural.

  `parse` reads a pattern as a list of items and `Matches` says what they match.  `match_iff`: the matcher
  finds exactly that.  `grep` is run on what its reads return, which is any division of the input that
  fits in the buffer.  It stops at a line that does not (`grepLoop_output`), and `grep_lines_iff` says when
  nothing is lost by that.
-/
import Mathlib.Data.List.Basic

namespace Xv6.Grep

open List

/-! ## The matcher -/

/-- `matchstar(c, re, text)`, where `here` is `matchhere(re, ·)`. -/
def matchstar (c : Char) (here : List Char → Bool) : List Char → Bool
  | [] => here []
  | x :: text => here (x :: text) || (x == c || c == '.') && matchstar c here text

def matchhere : List Char → List Char → Bool
  | [], _ => true
  | [c], text =>
    if c = '$' then text.isEmpty
    else match text with
      | [] => false
      | x :: _ => c == '.' || c == x
  | c :: d :: re, text =>
    if d = '*' then matchstar c (matchhere re) text
    else match text with
      | [] => false
      | x :: text => (c == '.' || c == x) && matchhere (d :: re) text

/-- The loop of `match`. -/
def matchLoop (re : List Char) : List Char → Bool
  | [] => matchhere re []
  | x :: text => matchhere re (x :: text) || matchLoop re text

/-- `match`. -/
def matchText (re text : List Char) : Bool :=
  match re with
  | '^' :: re => matchhere re text
  | re => matchLoop re text

/-! ## The language -/

inductive Item where
  | star (c : Char)
  | one (c : Char)
  /-- The end of the text. -/
  | eol

def parse : List Char → List Item
  | [] => []
  | [c] => if c = '$' then [.eol] else [.one c]
  | c :: d :: re => if d = '*' then .star c :: parse re else .one c :: parse (d :: re)

/-- A character of a pattern stands for a character of the text. -/
def Accepts (c x : Char) : Prop := c = '.' ∨ c = x

/-- The items match the word, where `rest` follows it. -/
def Matches : List Item → List Char → List Char → Prop
  | [], word, _ => word = []
  | .star c :: items, word, rest =>
    ∃ run word', word = run ++ word' ∧ (∀ x ∈ run, Accepts c x) ∧ Matches items word' rest
  | .one c :: items, word, rest => ∃ x word', word = x :: word' ∧ Accepts c x ∧ Matches items word' rest
  | .eol :: items, word, rest => word = [] ∧ rest = [] ∧ Matches items [] []

/-- The items match at the beginning of the text. -/
def MatchesHere (items : List Item) (text : List Char) : Prop :=
  ∃ word rest, text = word ++ rest ∧ Matches items word rest

variable {text : List Char}

theorem matchesHere_nil : MatchesHere [] text :=
  ⟨[], text, rfl, rfl⟩

variable {items : List Item}

theorem matchesHere_one {c : Char} :
    MatchesHere (.one c :: items) text ↔
      ∃ x text', text = x :: text' ∧ Accepts c x ∧ MatchesHere items text' := by
  constructor
  · rintro ⟨_, rest, rfl, x, word, rfl, hx, hw⟩
    exact ⟨x, word ++ rest, rfl, hx, word, rest, rfl, hw⟩
  · rintro ⟨x, _, rfl, hx, word, rest, rfl, hw⟩
    exact ⟨x :: word, rest, rfl, x, word, rfl, hx, hw⟩

theorem matchesHere_eol : MatchesHere [.eol] text ↔ text = [] := by
  constructor
  · rintro ⟨_, _, rfl, rfl, rfl, _⟩
    rfl
  · rintro rfl
    exact ⟨[], [], rfl, rfl, rfl, rfl⟩

/-- A star stops here, or takes a character and goes on. -/
theorem matchesHere_star {c : Char} :
    MatchesHere (.star c :: items) text ↔ MatchesHere items text ∨
      ∃ x text', text = x :: text' ∧ Accepts c x ∧ MatchesHere (.star c :: items) text' := by
  constructor
  · rintro ⟨_, rest, rfl, run, word, rfl, hrun, hw⟩
    cases run with
    | nil => exact Or.inl ⟨word, rest, rfl, hw⟩
    | cons x run =>
      rw [forall_mem_cons] at hrun
      exact Or.inr ⟨x, run ++ word ++ rest, rfl, hrun.1, run ++ word, rest, rfl, run, word, rfl, hrun.2, hw⟩
  · rintro (⟨word, rest, rfl, hw⟩ | ⟨x, _, rfl, hx, _, rest, rfl, run, word, rfl, hrun, hw⟩)
    · exact ⟨word, rest, rfl, [], word, rfl, nofun, hw⟩
    · exact ⟨x :: (run ++ word), rest, rfl, x :: run, word, rfl,
        forall_mem_cons.mpr ⟨hx, hrun⟩, hw⟩

/-! ## The matcher finds what the pattern matches -/

theorem accepts_iff {c x : Char} : Accepts c x ↔ (x == c || c == '.') = true := by
  unfold Accepts
  rw [Bool.or_eq_true, beq_iff_eq, beq_iff_eq, or_comm, eq_comm]

theorem matchstar_iff {c : Char} {here : List Char → Bool}
    (hhere : ∀ text, here text = true ↔ MatchesHere items text) (text : List Char) :
    matchstar c here text = true ↔ MatchesHere (.star c :: items) text := by
  induction text with
  | nil =>
    rw [matchesHere_star]
    simp [matchstar, hhere]
  | cons x text ih =>
    rw [matchesHere_star]
    simp [matchstar, hhere, ih, accepts_iff]

theorem matchhere_iff : ∀ re text : List Char, matchhere re text = true ↔ MatchesHere (parse re) text
  | [], _ => iff_of_true rfl matchesHere_nil
  | [c], text => by
    unfold matchhere parse
    split
    · rw [matchesHere_eol, List.isEmpty_iff]
    · rw [matchesHere_one]
      cases text <;> simp [Accepts, matchesHere_nil]
  | c :: d :: re, text => by
    unfold matchhere parse
    split
    · exact matchstar_iff (matchhere_iff re) text
    · rw [matchesHere_one]
      cases text with
      | nil => simp
      | cons x text => simp [Accepts, matchhere_iff (d :: re) text]

theorem matchLoop_iff (re text : List Char) :
    matchLoop re text = true ↔ ∃ before text', text = before ++ text' ∧ MatchesHere (parse re) text' := by
  induction text with
  | nil => simp [matchLoop, matchhere_iff]
  | cons x text ih =>
    unfold matchLoop
    rw [Bool.or_eq_true, matchhere_iff, ih]
    constructor
    · rintro (h | ⟨before, text', rfl, h⟩)
      · exact ⟨[], x :: text, rfl, h⟩
      · exact ⟨x :: before, text', rfl, h⟩
    · rintro ⟨before, text', heq, h⟩
      cases before with
      | nil =>
        rw [heq]
        exact Or.inl h
      | cons y before =>
        cases heq
        exact Or.inr ⟨before, text', rfl, h⟩

/-- The matcher finds a word of the text that the pattern matches, at its beginning if the pattern
    starts with `^`. -/
theorem match_iff (re text : List Char) : matchText re text = true ↔ ∃ before word rest,
    text = before ++ word ++ rest ∧
      match re with
      | '^' :: re => before = [] ∧ Matches (parse re) word rest
      | re => Matches (parse re) word rest := by
  unfold matchText
  split
  · rw [matchhere_iff]
    constructor
    · rintro ⟨word, rest, rfl, h⟩
      exact ⟨[], word, rest, rfl, rfl, h⟩
    · rintro ⟨_, word, rest, rfl, rfl, h⟩
      exact ⟨word, rest, rfl, h⟩
  · rw [matchLoop_iff]
    constructor
    · rintro ⟨before, _, rfl, word, rest, rfl, h⟩
      exact ⟨before, word, rest, (append_assoc before word rest).symm, h⟩
    · rintro ⟨before, word, rest, rfl, h⟩
      exact ⟨before, word ++ rest, append_assoc before word rest, word, rest, rfl, h⟩

/-- A starred `$` is not the end of the text. -/
example : matchText "^a.*$*b$".toList "axx$$b".toList = true := by decide

/-! ## The loop over the input -/

/-- The inner loop, with `line` between `p` and the character it looks at: what is written, and what
    is left in the buffer. -/
def scan (pattern line : List Char) : List Char → List Char × List Char
  | [] => ([], line)
  | x :: text =>
    -- `strchr` looks no further than the NUL
    if x = '\x00' then ([], line ++ x :: text)
    else if x = '\n' then
      let (out, rest) := scan pattern [] text
      (if matchText pattern line then line ++ x :: out else out, rest)
    else scan pattern (line ++ [x]) text

/-- The loop of `grep`, with what the reads return and what is in the buffer before them. -/
def grepLoop (pattern : List Char) : List Char → List (List Char) → List Char
  | _, [] => []
  | buf, chunk :: chunks =>
    let (out, rest) := scan pattern [] (buf ++ chunk)
    out ++ grepLoop pattern rest chunks

def grep (pattern : List Char) (chunks : List (List Char)) : List Char := grepLoop pattern [] chunks

/-- What reads of `sizeof(buf) - m - 1` characters can return. They return nothing at the end of the
    input, or if they ask for nothing. -/
inductive Reads (pattern : List Char) : List Char → List Char → List (List Char) → Prop
  | stop {buf input : List Char} (h : input = [] ∨ buf.length = 1023) : Reads pattern buf input []
  | read {buf chunk input : List Char} {chunks : List (List Char)} (hne : chunk ≠ [])
      (hfits : buf.length + chunk.length ≤ 1023)
      (h : Reads pattern (scan pattern [] (buf ++ chunk)).2 input chunks) :
      Reads pattern buf (chunk ++ input) (chunk :: chunks)

/-- The lines as a text. -/
def unlines (lines : List (List Char)) : List Char := lines.flatMap (· ++ ['\n'])

def Clean (line : List Char) : Prop := '\n' ∉ line ∧ '\x00' ∉ line

/-- A line and its newline fit in the buffer. -/
def fits (line : List Char) : Bool := line.length < 1023

section lines

variable {pattern : List Char} {lines : List (List Char)}

theorem unlines_cons (line : List Char) : unlines (line :: lines) = line ++ '\n' :: unlines lines := by
  simp [unlines]

theorem unlines_append (lines' : List (List Char)) :
    unlines (lines ++ lines') = unlines lines ++ unlines lines' :=
  flatMap_append

theorem unlines_eq_nil : unlines lines = [] ↔ lines = [] := by
  cases lines <;> simp [unlines]

/-- The beginning of a text without a newline is the beginning of its first line. -/
theorem cut_unlines {a b : List Char} (ha : '\n' ∉ a) (h : a ++ b = unlines lines) :
    a = [] ∧ lines = [] ∨ ∃ c rest, lines = (a ++ c) :: rest ∧ b = c ++ '\n' :: unlines rest := by
  cases lines with
  | nil => exact Or.inl ⟨(append_eq_nil_iff.mp h).1, rfl⟩
  | cons line rest =>
    rw [unlines_cons, append_eq_append_iff] at h
    rcases h with ⟨c, rfl, rfl⟩ | ⟨c, rfl, hc⟩
    · exact Or.inr ⟨c, rest, rfl, rfl⟩
    · cases c with
      | nil => exact Or.inr ⟨[], rest, by simp, hc.symm⟩
      | cons x c =>
        obtain ⟨rfl, _⟩ := cons.inj hc
        exact absurd (by simp) ha

/-- The inner loop writes the lines that are complete and leaves the beginning of the next. -/
theorem scan_spec {line input : List Char} (hline : '\n' ∉ line)
    (hlines : ∀ l ∈ lines, Clean l) (h : line ++ text ++ input = unlines lines) :
    ∃ before after, lines = before ++ after ∧
      (scan pattern line text).1 = unlines (before.filter (matchText pattern)) ∧
      '\n' ∉ (scan pattern line text).2 ∧
      (scan pattern line text).2 ++ input = unlines after ∧
      unlines before ++ (scan pattern line text).2 = line ++ text := by
  induction text generalizing line lines with
  | nil => exact ⟨[], lines, rfl, rfl, hline, by simpa [scan] using h, by simp [scan, unlines]⟩
  | cons x text ih =>
    rw [append_assoc] at h
    rcases cut_unlines hline h with ⟨rfl, rfl⟩ | ⟨c, rest, rfl, hrest⟩
    · cases h
    rw [forall_mem_cons] at hlines
    cases c with
    | nil =>
      obtain ⟨rfl, htext⟩ := cons.inj hrest
      obtain ⟨before, after, rfl, hout, hleft, hinput, hall⟩ := ih not_mem_nil hlines.2 htext
      have hscan : scan pattern line ('\n' :: text) =
          (if matchText pattern line then line ++ '\n' :: (scan pattern [] text).1
            else (scan pattern [] text).1, (scan pattern [] text).2) := rfl
      refine ⟨line :: before, after, by simp, ?_, hleft, hinput, ?_⟩
      · rw [hscan, hout, filter_cons]
        split
        · exact (unlines_cons line).symm
        · rfl
      · rw [unlines_cons, append_assoc, cons_append, hscan, hall]
        rfl
    | cons y c =>
      obtain ⟨rfl, htext⟩ := cons.inj hrest
      have hnl : '\n' ∉ line ++ [x] := fun hin => hlines.1.1 (by
        rcases mem_append.mp hin with hin | hin
        · exact mem_append_left _ hin
        · exact mem_append_right _ (mem_cons.mpr (Or.inl (mem_singleton.mp hin))))
      have hscan : scan pattern line (x :: text) = scan pattern (line ++ [x]) text := by
        have hnul : x ≠ '\x00' := fun hx => hlines.1.2 (by simp [hx])
        have hnl : x ≠ '\n' := fun hx => hlines.1.1 (by simp [hx])
        rw [scan, if_neg hnul, if_neg hnl]
      obtain ⟨before, after, hba, hout, hleft, hinput, hall⟩ := ih hnl
        (forall_mem_cons.mpr hlines) (by simpa [unlines_cons] using htext)
      rw [hscan]
      exact ⟨before, after, hba, hout, hleft, hinput, by rw [hall, append_assoc]; rfl⟩

/-- Lines that are read together are short. -/
theorem fits_of_unlines {rest : List Char} (h : (unlines lines ++ rest).length ≤ 1023) :
    ∀ line ∈ lines, fits line = true := by
  intro line hline
  obtain ⟨before, after, rfl⟩ := append_of_mem hline
  rw [unlines_append, unlines_cons] at h
  simp only [length_append, length_cons] at h
  exact decide_eq_true (by omega)

/-- Whatever the reads return, the lines before the first one that does not fit are looked at. -/
theorem grepLoop_output {buf input : List Char} {chunks : List (List Char)}
    (hreads : Reads pattern buf input chunks) (hbuf : '\n' ∉ buf) (hlines : ∀ l ∈ lines, Clean l)
    (h : buf ++ input = unlines lines) :
    grepLoop pattern buf chunks = unlines ((lines.takeWhile fits).filter (matchText pattern)) := by
  induction hreads generalizing lines with
  | @stop buf input hstop =>
    rcases cut_unlines hbuf h with ⟨_, rfl⟩ | ⟨c, rest, rfl, hrest⟩
    · rfl
    · rcases hstop with rfl | hlen
      · cases c <;> cases hrest
      · have hlong : ¬ fits (buf ++ c) = true := by simp [fits, hlen]
        rw [takeWhile_cons_of_neg hlong]
        rfl
  | @read buf chunk input chunks hne hfits _ ih =>
    rw [← append_assoc] at h
    obtain ⟨before, after, rfl, hout, hleft, hinput, hall⟩ := scan_spec not_mem_nil hlines h
    have hshort : ∀ line ∈ before, fits line = true := fits_of_unlines (by
      rw [hall]
      simpa using hfits)
    rw [takeWhile_append_of_pos hshort, filter_append, unlines_append, ← hout,
      ← ih hleft (fun l hl => hlines l (mem_append_right _ hl)) hinput]
    rfl

end lines

/-- All matching lines are written, and nothing else, exactly if no line matches from the first one on
    that does not fit in the buffer. -/
theorem grep_lines_iff (pattern : List Char) (lines chunks : List (List Char))
    (hlines : ∀ l ∈ lines, Clean l) (hreads : Reads pattern [] (unlines lines) chunks) :
    grep pattern chunks = unlines (lines.filter (matchText pattern)) ↔
      ∀ line ∈ lines.dropWhile fits, ¬ matchText pattern line = true := by
  unfold grep
  rw [grepLoop_output hreads nofun hlines rfl]
  conv_lhs => rhs; rw [← takeWhile_append_dropWhile (p := fits) (l := lines)]
  rw [filter_append, unlines_append, self_eq_append_right, unlines_eq_nil, filter_eq_nil_iff]

/-- A line in two reads. -/
theorem grep_two_reads : ∃ chunks, Reads ['b'] [] (unlines [['a', 'b']]) chunks ∧
    (grep ['b'] chunks = unlines ([['a', 'b']].filter (matchText ['b'])) ↔
      ∀ line ∈ [['a', 'b']].dropWhile fits, ¬ matchText ['b'] line = true) := by
  have hreads : Reads ['b'] [] (unlines [['a', 'b']]) [['a'], ['b', '\n']] := by
    refine .read (show ['a'] ≠ [] by decide) (by decide) ?_
    exact .read (show ['b', '\n'] ≠ [] by decide) (by decide) (.stop (Or.inl rfl))
  have hclean : ∀ l ∈ [['a', 'b']], Clean l := by
    unfold Clean
    decide
  exact ⟨_, hreads, grep_lines_iff _ _ _ hclean hreads⟩

/-- After a line of 1023 characters nothing is read. -/
theorem grep_stops : ∃ lines chunks, (∀ l ∈ lines, Clean l) ∧ Reads ['b'] [] (unlines lines) chunks ∧
    grep ['b'] chunks = [] ∧ lines.filter (matchText ['b']) = [['b']] := by
  refine ⟨[replicate 1023 'a', ['b']], [replicate 1023 'a'], ?_, ?_, ?_, ?_⟩
  · unfold Clean
    decide +kernel
  · rw [unlines_cons]
    exact .read (by decide) (by decide +kernel) (.stop (Or.inr (by decide +kernel)))
  · decide +kernel
  · decide +kernel

end Xv6.Grep
