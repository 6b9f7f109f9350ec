/-
  The tokens of a line.

  `toks` is what repeated calls of `gettoken` return.  `toks_cons` and `peek_eq` say what `gettoken` and
  `peek` do in terms of the tokens that are left.  A pointer that the parser holds never stands inside a
  word (`At`), so that the words among the tokens are maximal on both sides (`At.delimited`).
-/
import Mathlib.Data.List.DropRight
import Mathlib.Data.List.TakeWhile
import Xv6.User.Sh

namespace Xv6.Sh

open List

/-- A word of type `ω`, or the character that `gettoken` returns (`'+'` for `>>`). -/
inductive Token (ω : Type) where
  | word (w : ω)
  | sym (c : Char)
  deriving DecidableEq

def Token.map {ω ω' : Type} (f : ω → ω') : Token ω → Token ω'
  | .word w => .word (f w)
  | .sym c => .sym c

/-- The characters between two pointers. -/
def text (w : Word) : List Char := w.1.take (w.1.length - w.2.length)

theorem text_append (w e : List Char) : text (w ++ e, e) = w := by
  simp [text]

def Got.token (g : Got) : Token Word := if g.tok = 'a' then .word g.word else .sym g.tok

def symFirst (c : Char) : Char := if c = '+' then '>' else c

/-- The character that a token starts with. -/
def Token.first : Token Word → Char
  | .word w => (text w).headD '\x00'
  | .sym c => symFirst c

/-! ## `gettoken` -/

theorem skip_suffix (s : Ptr) : skip s <:+ s := dropWhile_suffix _

theorem skip_skip (s : Ptr) : skip (skip s) = skip s := dropWhile_idempotent _ _

theorem gettoken_skip (s : Ptr) : gettoken (skip s) = gettoken s := by
  unfold gettoken
  rw [skip_skip]

/-- What `scan` finds: the end of the line, a symbol, or a word. -/
inductive Scanned : Ptr → Char → Ptr → Prop
  | nil : Scanned [] '\x00' []
  | nul (s : Ptr) : Scanned ('\x00' :: s) '\x00' ('\x00' :: s)
  | sym (c : Char) (s : Ptr) (hc : c ∈ ['|', '(', ')', ';', '&', '<', '>']) : Scanned (c :: s) c s
  | append (s : Ptr) : Scanned ('>' :: '>' :: s) '+' s
  | word (c : Char) (s : Ptr) (hsym : symbols.contains c = false) (hnul : c ≠ '\x00') :
      Scanned (c :: s) 'a' ((c :: s).dropWhile wordChar)

theorem scan_spec (q : Ptr) : Scanned q (scan q).1 (scan q).2 := by
  fun_cases scan q with
  | case1 => exact .nil
  | case2 s => exact .nul s
  | case3 c s hnul hone =>
    refine .sym c s ?_
    simp only [mem_cons]
    tauto
  | case4 s => exact .append s
  | case5 s => exact .sym '>' s (by decide)
  | case6 c s hnul hone hgt =>
    refine .word c s ?_ hnul
    simp only [symbols, contains_eq_mem, mem_cons, decide_eq_false_iff_not]
    tauto

/-- A token is not empty. -/
theorem Scanned.length_lt {q e : Ptr} {r : Char} (h : Scanned q r e) (hr : r ≠ '\x00')
    (hq : ∀ c ∈ q.head?, whitespace.contains c = false) : e.length < q.length := by
  cases h with
  | nil | nul => exact absurd rfl hr
  | sym c s hc => exact Nat.lt_succ_self _
  | append s =>
    simp only [length_cons]
    omega
  | word c s hsym hnul =>
    have hc : wordChar c = true := by
      simp only [wordChar, hsym, hq c rfl, Bool.not_false, Bool.and_self]
    rw [dropWhile_cons_of_pos hc]
    exact Nat.lt_succ_of_le (dropWhile_suffix _).length_le

variable {s : Ptr} {c : Char} {ts : List (Token Word)}

/-- Where a run of characters ends. -/
theorem head?_dropWhile {p : Char → Bool} (hc : c ∈ (s.dropWhile p).head?) : p c = false := by
  induction s with
  | nil => cases hc
  | cons a s ih =>
    by_cases ha : p a = true
    · rw [dropWhile_cons_of_pos ha] at hc
      exact ih hc
    · rw [dropWhile_cons_of_neg ha] at hc
      cases hc
      exact Bool.eq_false_iff.mpr ha

theorem gettoken_scanned (s : Ptr) :
    Scanned (skip s) (gettoken s).tok (gettoken s).word.2 := scan_spec (skip s)

theorem Scanned.suffix {q e : Ptr} {r : Char} (h : Scanned q r e) : e <:+ q := by
  cases h with
  | nil | nul => exact suffix_rfl
  | sym _ _ hc => exact suffix_cons _ _
  | append _ => exact (suffix_cons _ _).trans (suffix_cons _ _)
  | word c s hsym hnul => exact dropWhile_suffix _

theorem gettoken_rest_suffix (s : Ptr) : (gettoken s).rest <:+ s :=
  (skip_suffix _).trans ((gettoken_scanned s).suffix.trans (skip_suffix s))

theorem gettoken_rest_lt (h : (gettoken s).tok ≠ '\x00') : (gettoken s).rest.length < s.length :=
  calc (gettoken s).rest.length
      ≤ (gettoken s).word.2.length := (skip_suffix _).length_le
    _ < (skip s).length := (gettoken_scanned s).length_lt h fun _ hc => head?_dropWhile hc
    _ ≤ s.length := (skip_suffix s).length_le

/-- A word in the line: it ends where a character is not part of it. -/
structure IsWord (line : List Char) (w : Word) : Prop where
  suffix : w.1 <:+ line
  split : text w ++ w.2 = w.1
  chars : ∀ c ∈ text w, wordChar c = true
  stop : ∀ c ∈ w.2.head?, wordChar c = false

theorem gettoken_word {line : Ptr} (hs : s <:+ line) (h : (gettoken s).tok = 'a') :
    IsWord line (gettoken s).word := by
  have hsc := gettoken_scanned s
  have hq : (gettoken s).word.1 = skip s := rfl
  rw [h] at hsc
  generalize hw : (gettoken s).word = w at hsc hq
  obtain ⟨q, e⟩ := w
  dsimp only at hq hsc
  subst hq
  have he : e = (skip s).dropWhile wordChar := by
    generalize skip s = q at hsc
    cases hsc with
    | sym c s hc => exact absurd hc (by decide)
    | word c s hsym hnul => rfl
  have htext : text (skip s, e) = (skip s).takeWhile wordChar := by
    have happ := text_append ((skip s).takeWhile wordChar) e
    rwa [he, takeWhile_append_dropWhile, ← he] at happ
  refine ⟨(skip_suffix s).trans hs, ?_, ?_, ?_⟩
  · rw [htext, he]
    exact takeWhile_append_dropWhile
  · rw [htext]
    exact fun c hc => mem_takeWhile_imp hc
  · rw [he]
    exact fun c hc => head?_dropWhile hc

/-! ## The tokens of a line -/

def toks (s : Ptr) : List (Token Word) :=
  if _ : (gettoken s).tok = '\x00' then [] else (gettoken s).token :: toks (gettoken s).rest
termination_by s.length
decreasing_by exact gettoken_rest_lt (by assumption)

theorem toks_nil (h : (gettoken s).tok = '\x00') : toks s = [] := by
  rw [toks, dif_pos h]

theorem toks_cons (h : (gettoken s).tok ≠ '\x00') :
    toks s = (gettoken s).token :: toks (gettoken s).rest := by
  rw [toks, dif_neg h]

theorem toks_eq_nil (h : toks s = []) : (gettoken s).tok = '\x00' := by
  by_contra hne
  rw [toks_cons hne] at h
  cases h

theorem toks_eq_cons {t : Token Word} (h : toks s = t :: ts) :
    (gettoken s).token = t ∧ toks (gettoken s).rest = ts := by
  by_cases hn : (gettoken s).tok = '\x00'
  · rw [toks_nil hn] at h
    cases h
  · rw [toks_cons hn] at h
    exact cons.inj h

theorem toks_skip (s : Ptr) : toks (skip s) = toks s := by
  by_cases h : (gettoken s).tok = '\x00'
  · rw [toks_nil h, toks_nil (by rw [gettoken_skip]; exact h)]
  · rw [toks_cons h, toks_cons (by rw [gettoken_skip]; exact h), gettoken_skip]

/-- At the end of the line. -/
theorem gettoken_nul (h : (gettoken s).tok = '\x00') :
    (gettoken s).word.2 = skip s ∧ (skip s = [] ∨ ∃ t, skip s = '\x00' :: t) := by
  have hsc := gettoken_scanned s
  rw [h] at hsc
  generalize skip s = q at hsc
  generalize (gettoken s).word.2 = e at hsc
  cases hsc with
  | nil => exact ⟨rfl, Or.inl rfl⟩
  | nul s => exact ⟨rfl, Or.inr ⟨s, rfl⟩⟩
  | sym _ _ hc => exact absurd hc (by decide)

theorem gettoken_rest_nul (h : (gettoken s).tok = '\x00') : (gettoken s).rest = skip s := by
  show skip (gettoken s).word.2 = skip s
  rw [(gettoken_nul h).1, skip_skip]

/-- The tokens that `gettoken` makes. -/
def Token.Valid : Token Word → Prop
  | .word w => ∃ c w', text w = c :: w' ∧ symbols.contains c = false ∧ c ≠ '\x00'
  | .sym c => c ∈ ['|', '(', ')', ';', '&', '<', '>', '+']

/-- A token, and what `peek` sees of it. -/
theorem gettoken_token (h : (gettoken s).tok ≠ '\x00') :
    (gettoken s).token.Valid ∧ (skip s).head? = some (gettoken s).token.first ∧
      (gettoken s).token.first ≠ '\x00' := by
  have hsc := gettoken_scanned s
  have hhead : ∀ c ∈ (skip s).head?, whitespace.contains c = false := fun _ hc => head?_dropWhile hc
  have htoken : (gettoken s).token = if (gettoken s).tok = 'a' then
      .word (skip s, (gettoken s).word.2) else .sym (gettoken s).tok := rfl
  rw [htoken]
  generalize (gettoken s).tok = r at h hsc
  generalize (gettoken s).word.2 = e at hsc
  generalize skip s = q at hsc hhead
  cases hsc with
  | nil | nul => exact absurd rfl h
  | sym _ _ hc =>
    have ha : r ≠ 'a' := by
      rintro rfl
      exact absurd hc (by decide)
    have hplus : r ≠ '+' := by
      rintro rfl
      exact absurd hc (by decide)
    rw [if_neg ha, Token.first, symFirst, if_neg hplus]
    exact ⟨mem_append_left ['+'] hc, rfl, h⟩
  | append _ =>
    rw [if_neg (by decide)]
    refine ⟨?_, rfl, by decide⟩
    show '+' ∈ ['|', '(', ')', ';', '&', '<', '>', '+']
    decide
  | word c s hsym hnul =>
    have hc : wordChar c = true := by
      simp only [wordChar, hsym, hhead c rfl, Bool.not_false, Bool.and_self]
    have htext : text (c :: s, (c :: s).dropWhile wordChar) = c :: s.takeWhile wordChar := by
      have happ := text_append ((c :: s).takeWhile wordChar) ((c :: s).dropWhile wordChar)
      rwa [takeWhile_append_dropWhile, takeWhile_cons_of_pos hc] at happ
    rw [if_pos rfl, Token.first, htext]
    exact ⟨⟨c, _, htext, hsym, hnul⟩, rfl, hnul⟩

/-- `peek` looks at the first character of the next token. -/
def startsWith (ts : List (Token Word)) (cs : List Char) : Bool :=
  match ts with
  | [] => false
  | t :: _ => cs.contains t.first

theorem peek_eq (s : Ptr) (cs : List Char) : peek s cs = (startsWith (toks s) cs, skip s) := by
  unfold peek
  by_cases h : (gettoken s).tok = '\x00'
  · rw [toks_nil h]
    obtain ⟨-, hq | ⟨t, hq⟩⟩ := gettoken_nul h
    · rw [hq]
      rfl
    · rw [hq]
      rfl
  · rw [toks_cons h]
    obtain ⟨-, hhead, hnul⟩ := gettoken_token h
    obtain ⟨s', hq⟩ := head?_eq_some_iff.mp hhead
    rw [hq]
    simp [startsWith, hnul]

theorem toks_valid {t : Token Word} (ht : t ∈ toks s) : t.Valid := by
  induction hn : s.length using Nat.strong_induction_on generalizing s with
  | _ n ih =>
    by_cases h : (gettoken s).tok = '\x00'
    · rw [toks_nil h] at ht
      cases ht
    · rw [toks_cons h] at ht
      rcases mem_cons.mp ht with rfl | ht
      · exact (gettoken_token h).1
      · exact ih _ (hn ▸ gettoken_rest_lt h) ht rfl

/-! ## Symbols -/

/-- A word starts with no symbol. -/
theorem startsWith_word {w : Word} {cs : List Char} (hv : (Token.word w).Valid)
    (hcs : cs.all symbols.contains = true) : startsWith (.word w :: ts) cs = false := by
  obtain ⟨c, w', htext, hc, -⟩ := hv
  refine Bool.eq_false_iff.mpr fun hmem => ?_
  rw [startsWith, Token.first, htext] at hmem
  have hin : c ∈ cs := contains_iff_mem.mp hmem
  rw [all_eq_true.mp hcs c hin] at hc
  cases hc

/-- The next token is the symbol that `peek` looks for. -/
theorem toks_of_startsWith {cs : List Char} (h : startsWith (toks s) cs = true)
    (hcs : cs.all symbols.contains = true) :
    ∃ c, (gettoken s).tok = c ∧ toks s = .sym c :: toks (gettoken s).rest ∧
      symFirst c ∈ cs ∧ c ≠ '\x00' := by
  by_cases hn : (gettoken s).tok = '\x00'
  · rw [toks_nil hn] at h
    cases h
  · rw [toks_cons hn] at h ⊢
    obtain ⟨hv, -, -⟩ := gettoken_token hn
    by_cases ha : (gettoken s).tok = 'a'
    · have hw : (gettoken s).token = .word (gettoken s).word := if_pos ha
      rw [hw] at h hv
      rw [startsWith_word hv hcs] at h
      cases h
    · have hsym : (gettoken s).token = .sym (gettoken s).tok := if_neg ha
      rw [hsym] at h ⊢
      exact ⟨_, rfl, rfl, contains_iff_mem.mp h, hn⟩

theorem toks_of_peek (h : startsWith (toks s) [c] = true) (hc : symbols.contains c = true)
    (hgt : c ≠ '>') : (gettoken s).tok ≠ '\x00' ∧ toks s = .sym c :: toks (gettoken s).rest := by
  have hall : [c].all symbols.contains = true := by
    rw [all_cons, hc]
    rfl
  obtain ⟨d, hd, htoks, hin, hnul⟩ := toks_of_startsWith h hall
  by_cases hplus : d = '+'
  · rw [symFirst, if_pos hplus] at hin
    exact absurd (mem_singleton.mp hin).symm hgt
  · rw [symFirst, if_neg hplus] at hin
    obtain rfl := mem_singleton.mp hin
    exact ⟨hd ▸ hnul, htoks⟩

/-- A symbol is taken by `gettoken`. -/
theorem toks_sym (h : toks s = .sym c :: ts) :
    (gettoken s).tok = c ∧ toks (gettoken s).rest = ts := by
  obtain ⟨ht, hts⟩ := toks_eq_cons h
  unfold Got.token at ht
  split at ht
  · cases ht
  · exact ⟨Token.sym.inj ht, hts⟩

theorem toks_word {w : Word} (h : toks s = .word w :: ts) :
    (gettoken s).tok = 'a' ∧ (gettoken s).word = w ∧ toks (gettoken s).rest = ts := by
  obtain ⟨ht, hts⟩ := toks_eq_cons h
  unfold Got.token at ht
  split at ht
  · rename_i ha
    exact ⟨ha, Token.word.inj ht, hts⟩
  · cases ht

/-- At the end of a line without NUL. -/
theorem skip_of_toks (h : toks s = []) (hs : '\x00' ∉ s) : skip s = [] := by
  obtain ⟨-, hq | ⟨t, hq⟩⟩ := gettoken_nul (toks_eq_nil h)
  · exact hq
  · exact absurd ((skip_suffix s).subset (by rw [hq]; exact mem_cons_self)) hs

/-! ## Pointers -/

/-- The pointer is not between two characters of a word. -/
def At (line s : Ptr) : Prop :=
  ∃ pre, pre ++ s = line ∧ ∀ a ∈ pre.getLast?, ∀ b ∈ s.head?, wordChar a = true → wordChar b = false

variable {line : Ptr}

theorem At.suffix (h : At line s) : s <:+ line := by
  obtain ⟨pre, hpre, -⟩ := h
  exact ⟨pre, hpre⟩

/-- Behind characters that are not part of a word. -/
theorem At.append (xs : Ptr) {e : Ptr} (h : At line (xs ++ e)) (hxs : ∀ a ∈ xs, wordChar a = false) :
    At line e := by
  obtain ⟨pre, hpre, hedge⟩ := h
  cases hlast : xs.getLast? with
  | none =>
    rw [getLast?_eq_none_iff.mp hlast] at hpre hedge
    exact ⟨pre, hpre, hedge⟩
  | some b =>
    refine ⟨pre ++ xs, by rw [append_assoc]; exact hpre, fun a ha _ _ hword => ?_⟩
    rw [getLast?_append, hlast] at ha
    cases ha
    rw [hxs b (mem_of_getLast? hlast)] at hword
    cases hword

theorem At.skip (h : At line s) : At line (skip s) := by
  refine At.append (s.takeWhile whitespace.contains) ?_ fun a ha => ?_
  · rw [Sh.skip, takeWhile_append_dropWhile]
    exact h
  · rw [wordChar, mem_takeWhile_imp ha]
    rfl

theorem At.symbol {a : Char} {e : Ptr} (h : At line (a :: e)) (ha : a ∈ symbols) : At line e := by
  refine At.append [a] h fun b hb => ?_
  rw [mem_singleton.mp hb, wordChar, contains_iff_mem.mpr ha]
  exact Bool.and_false _

theorem Scanned.at {q e : Ptr} {r : Char} (h : Scanned q r e) (hq : At line q) : At line e := by
  cases h with
  | nil | nul => exact hq
  | sym _ _ hr =>
    exact hq.symbol ((show ['|', '(', ')', ';', '&', '<', '>'] ⊆ symbols by decide) hr)
  | append _ => exact (hq.symbol (by decide)).symbol (by decide)
  | word a s _ _ =>
    obtain ⟨pre, hpre⟩ := (dropWhile_suffix wordChar).trans hq.suffix
    exact ⟨pre, hpre, fun _ _ b hb _ => head?_dropWhile hb⟩

theorem At.rest (h : At line s) : At line (gettoken s).rest :=
  ((gettoken_scanned s).at h.skip).skip

/-! ## Words -/

/-- A maximal run of characters of a word. -/
structure Delimited (line : List Char) (w : Word) : Prop extends IsWord line w where
  nonempty : text w ≠ []
  start : ∀ pre, pre ++ w.1 = line → ∀ a ∈ pre.getLast?, wordChar a = false

theorem At.word (h : At line s) (hw : (gettoken s).tok = 'a') : Delimited line (gettoken s).word := by
  have hword := gettoken_word h.suffix hw
  obtain ⟨hvalid, -, -⟩ := gettoken_token (by rw [hw]; decide)
  rw [Got.token, if_pos hw] at hvalid
  obtain ⟨b, w', htext, -, -⟩ := hvalid
  refine ⟨hword, by rw [htext]; exact cons_ne_nil b w', fun pre hpre a ha => ?_⟩
  obtain ⟨pre', hpre', hedge⟩ := h.skip
  obtain rfl := append_cancel_right (hpre.trans hpre'.symm)
  have hb : wordChar b = true := hword.chars b (by rw [htext]; exact mem_cons_self)
  have hhead : b ∈ (Sh.skip s).head? := by
    have hsplit := hword.split
    rw [htext] at hsplit
    exact congrArg head? hsplit.symm
  by_contra hne
  rw [hedge a ha b hhead (Bool.of_not_eq_false hne)] at hb
  cases hb

/-- What `gettoken` delimits from there on. -/
theorem At.delimited {w : Word} (h : At line s) (hw : .word w ∈ toks s) : Delimited line w := by
  induction hn : s.length using Nat.strong_induction_on generalizing s with
  | _ n ih =>
    by_cases hnul : (gettoken s).tok = '\x00'
    · rw [toks_nil hnul] at hw
      cases hw
    · rw [toks_cons hnul] at hw
      rcases mem_cons.mp hw with hw | hw
      · obtain ⟨htok, rfl⟩ : (gettoken s).tok = 'a' ∧ (gettoken s).word = w := by
          unfold Got.token at hw
          split at hw
          · rename_i htok
            exact ⟨htok, (Token.word.inj hw).symm⟩
          · cases hw
        exact h.word htok
      · exact ih _ (hn ▸ gettoken_rest_lt hnul) h.rest hw rfl

end Xv6.Sh
