/-
  The grammar of the shell.

  `Derives` gives the token lists of each nonterminal with their commands, for words of any type.
  `Parsed` is what a parsing function has done where it returns: the tokens it took derive its command,
  with the pointers that `gettoken` returned as words (soundness, with termination, by induction on the
  line that is left).  Conversely the tokens of a derivation, followed by one that may follow, make the
  function return its command (completeness, by induction on the derivation).  `parsecmd_grammar` puts
  the two together for a whole line, where the words are read after `nulterminate`.
-/
import Mathlib.Logic.Function.Iterate
import Xv6.Lib.Fuel
import Xv6.User.Tokens

namespace Xv6.Sh

open Lib List

/-! ## Grammar -/

section grammar

variable {ω : Type}

/-- File, mode and descriptor. -/
abbrev Redir (ω : Type) := ω × Nat × Nat

/-- What a redirection opens. -/
def redirMode (op : Char) : Option (Nat × Nat) :=
  if op = '<' then some (O_RDONLY, 0)
  else if op = '>' then some (O_WRONLY ||| O_CREATE ||| O_TRUNC, 1)
  else if op = '+' then some (O_WRONLY ||| O_CREATE, 1)
  else none

/-- redir* -/
inductive Redirs : List (Token ω) → List (Redir ω) → Prop
  | nil : Redirs [] []
  | cons {op : Char} {w : ω} {m : Nat × Nat} {ts : List (Token ω)} {rs : List (Redir ω)} :
      redirMode op = some m → Redirs ts rs → Redirs (.sym op :: .word w :: ts) ((w, m) :: rs)

/-- (WORD redir*)* -/
inductive Args : List (Token ω) → List ω → List (Redir ω) → Prop
  | nil : Args [] [] []
  | cons {w : ω} {ts us : List (Token ω)} {ws : List ω} {rs rs' : List (Redir ω)} :
      Redirs ts rs → Args us ws rs' → Args (.word w :: (ts ++ us)) (w :: ws) (rs ++ rs')

/-- Each redirection wraps the command before it. -/
def wrap (rs : List (Redir ω)) (c : Cmd ω) : Cmd ω :=
  rs.foldl (fun c r => .redir c r.1 r.2.1 r.2.2) c

inductive Nonterminal where
  | line
  | pipe
  | exec
  deriving DecidableEq

inductive Derives : Nonterminal → List (Token ω) → Cmd ω → Prop
  | line {ts : List (Token ω)} {c : Cmd ω} (k : Nat) :
      Derives .pipe ts c → Derives .line (ts ++ replicate k (.sym '&')) (Cmd.back^[k] c)
  | list {ts us : List (Token ω)} {c d : Cmd ω} (k : Nat) :
      Derives .pipe ts c → Derives .line us d →
      Derives .line (ts ++ replicate k (.sym '&') ++ .sym ';' :: us) (.list (Cmd.back^[k] c) d)
  | one {ts : List (Token ω)} {c : Cmd ω} : Derives .exec ts c → Derives .pipe ts c
  | pipe {ts us : List (Token ω)} {c d : Cmd ω} :
      Derives .exec ts c → Derives .pipe us d → Derives .pipe (ts ++ .sym '|' :: us) (.pipe c d)
  | block {ts us : List (Token ω)} {c : Cmd ω} {rs : List (Redir ω)} :
      Derives .line ts c → Redirs us rs →
      Derives .exec (.sym '(' :: (ts ++ .sym ')' :: us)) (wrap rs c)
  | exec {ts us : List (Token ω)} {ws : List ω} {rs rs' : List (Redir ω)} :
      Redirs ts rs → Args us ws rs' → ws.length ≤ MAXARGS - 1 →
      Derives .exec (ts ++ us) (wrap (rs ++ rs') (.exec ws))

theorem wrap_append (rs rs' : List (Redir ω)) (c : Cmd ω) :
    wrap (rs ++ rs') c = wrap rs' (wrap rs c) :=
  foldl_append

/-- An argument goes to the node below the redirections. -/
theorem addArg_wrap (rs : List (Redir ω)) (ws : List ω) (w : ω) :
    (wrap rs (.exec ws)).addArg w = wrap rs (.exec (ws ++ [w])) := by
  induction rs using reverseRecOn with
  | nil => rfl
  | append_singleton rs r ih =>
    rw [wrap_append, wrap_append]
    exact congrArg (Cmd.redir · r.1 r.2.1 r.2.2) ih

end grammar

/-! ## Functions that return -/

/-- The messages with which the parser rejects a line. -/
def syntaxErrors : List String :=
  ["syntax", "syntax - missing )", "missing file for redirection", "too many args"]

def Ends {α : Type} (P : α → Ptr → Prop) : Out α → Prop
  | .panic msg => msg ∈ syntaxErrors
  | .ok cmd s => P cmd s

/-- With enough fuel, `f` rejects the line or returns what `P` says. -/
def Parses {α : Type} (f : Nat → Option (Out α)) (P : α → Ptr → Prop) : Prop :=
  ∃ r, Returns f r ∧ Ends P r

section parses

variable {α β : Type} {f : Nat → Option (Out α)} {g : Nat → α → Ptr → Option (Out β)}
  {P Q : α → Ptr → Prop} {R : β → Ptr → Prop}

theorem Parses.succ (h : Parses (fun fuel => f (fuel + 1)) P) : Parses f P := by
  obtain ⟨r, hr, hP⟩ := h
  exact ⟨r, hr.succ, hP⟩

theorem Parses.ok {a : α} {s : Ptr} (h : P a s) : Parses (fun _ => some (.ok a s)) P :=
  ⟨_, Returns.const _, h⟩

theorem Parses.panic {msg : String} (h : msg ∈ syntaxErrors) :
    Parses (fun _ => some (.panic msg)) P :=
  ⟨_, Returns.const _, h⟩

theorem Returns.andThen {a : α} {s : Ptr} {r : Out β} (hf : Returns f (.ok a s))
    (hg : Returns (fun fuel => g fuel a s) r) :
    Returns (fun fuel => Sh.andThen (f fuel) (g fuel)) r :=
  hf.bind hg

theorem Parses.andThen (hf : Parses f P) (hg : ∀ a s, P a s → Parses (fun fuel => g fuel a s) R) :
    Parses (fun fuel => Sh.andThen (f fuel) (g fuel)) R := by
  obtain ⟨r, hr, hP⟩ := hf
  cases r with
  | panic msg => exact ⟨.panic msg, hr.bind (Returns.const _), hP⟩
  | ok a s =>
    obtain ⟨r, hgr, hR⟩ := hg a s hP
    exact ⟨r, Returns.andThen hr hgr, hR⟩

theorem Parses.mono (h : Parses f P) (hPQ : ∀ a s, P a s → Q a s) : Parses f Q := by
  obtain ⟨r, hr, hP⟩ := h
  refine ⟨r, hr, ?_⟩
  cases r with
  | panic msg => exact hP
  | ok a s => exact hPQ a s hP

end parses

/-! ## Soundness -/

variable {w : Word} {op : Char} {cs buf : List Char} {ts rest : List (Token Word)}
variable {rs : List (Redir Word)} {ws : List Word}

theorem redircmd_eq {m : Nat × Nat} (h : redirMode op = some m) (c : Cmd Word) (w : Word) :
    redircmd op c w = .redir c w m.1 m.2 := by
  unfold redirMode at h
  unfold redircmd
  by_cases h1 : op = '<'
  · rw [if_pos h1] at h ⊢
    cases h
    rfl
  rw [if_neg h1] at h ⊢
  by_cases h2 : op = '>'
  · rw [if_pos h2] at h ⊢
    cases h
    rfl
  rw [if_neg h2] at h ⊢
  by_cases h3 : op = '+'
  · rw [if_pos h3] at h ⊢
    cases h
    rfl
  · rw [if_neg h3] at h
    cases h

/-- The tokens that `peek` takes for a redirection. -/
theorem redirMode_of_first (h : symFirst op ∈ ['<', '>']) : ∃ m, redirMode op = some m := by
  by_cases hplus : op = '+'
  · subst hplus
    exact ⟨_, rfl⟩
  · rw [symFirst, if_neg hplus] at h
    rcases mem_cons.mp h with rfl | h
    · exact ⟨_, rfl⟩
    · obtain rfl := mem_singleton.mp h
      exact ⟨_, rfl⟩

theorem redirMode_first {m : Nat × Nat} (h : redirMode op = some m) :
    ['<', '>'].contains (symFirst op) = true := by
  unfold redirMode at h
  by_cases h1 : op = '<'
  · subst h1
    decide
  by_cases h2 : op = '>'
  · subst h2
    decide
  by_cases h3 : op = '+'
  · subst h3
    decide
  · rw [if_neg h1, if_neg h2, if_neg h3] at h
    cases h

variable {c : Cmd Word}

/-- `parseredirs` from `c` and `s`. -/
structure Redirected (c : Cmd Word) (s : Ptr) (c' : Cmd Word) (s' : Ptr) : Prop where
  suffix : s' <:+ s
  derives : ∃ ts rs, toks s = ts ++ toks s' ∧ Redirs ts rs ∧ c' = wrap rs c

theorem parseredirs_sound {s : Ptr} :
    Parses (fun fuel => parseredirs fuel c s) (Redirected c s) := by
  induction hn : s.length using Nat.strong_induction_on generalizing s c with
  | _ n ih =>
    refine Parses.succ ?_
    simp only [parseredirs, peek_eq, gettoken_skip]
    by_cases hb : startsWith (toks s) ['<', '>'] = true
    · simp only [if_pos hb]
      obtain ⟨op, hop, htoks, hin, hnul⟩ := toks_of_startsWith hb (by decide)
      by_cases hw : (gettoken (gettoken s).rest).tok = 'a'
      · obtain ⟨m, hm⟩ := redirMode_of_first hin
        have hfile : toks (gettoken s).rest = .word (gettoken (gettoken s).rest).word ::
            toks (gettoken (gettoken s).rest).rest := by
          rw [toks_cons (by rw [hw]; decide), Got.token, if_pos hw]
        have hsuf := (gettoken_rest_suffix (gettoken s).rest).trans (gettoken_rest_suffix s)
        have hlt : (gettoken (gettoken s).rest).rest.length < n := by
          rw [← hn]
          exact Nat.lt_of_le_of_lt (gettoken_rest_suffix _).length_le
            (gettoken_rest_lt (by rw [hop]; exact hnul))
        simp only [hw, hop, redircmd_eq hm]
        refine (ih _ hlt rfl).mono ?_
        rintro c' s' ⟨hs', ts, rs, hts, hrs, rfl⟩
        refine ⟨hs'.trans hsuf, _, _, ?_, .cons hm hrs, rfl⟩
        rw [htoks, hfile, hts]
        rfl
      · simp only [ne_eq, hw]
        exact Parses.panic (by decide)
    · simp only [if_neg hb]
      exact Parses.ok ⟨skip_suffix s, [], [], (toks_skip s).symm, .nil, rfl⟩

/-- The loop of `parseexec` from a node with `argc` words and `s`. -/
structure Argued (rs₀ : List (Redir Word)) (ws₀ : List Word) (s : Ptr) (c' : Cmd Word) (s' : Ptr) :
    Prop where
  suffix : s' <:+ s
  derives : ∃ ts ws rs, toks s = ts ++ toks s' ∧ Args ts ws rs ∧
    (ws₀ ++ ws).length ≤ MAXARGS - 1 ∧ c' = wrap (rs₀ ++ rs) (.exec (ws₀ ++ ws))

theorem parseargs_sound {s : Ptr} (hws : ws.length ≤ MAXARGS - 1) :
    Parses (fun fuel => parseargs fuel (wrap rs (.exec ws)) ws.length s) (Argued rs ws s) := by
  induction hn : s.length using Nat.strong_induction_on generalizing s rs ws with
  | _ n ih =>
    have hnone : (ws ++ []).length ≤ MAXARGS - 1 ∧
        wrap rs (.exec ws) = wrap (rs ++ []) (.exec (ws ++ [])) := by
      rw [append_nil, append_nil]
      exact ⟨hws, rfl⟩
    refine Parses.succ ?_
    simp only [parseargs, peek_eq, gettoken_skip]
    by_cases hb : startsWith (toks s) ['|', ')', '&', ';'] = true
    · simp only [if_pos hb]
      exact Parses.ok ⟨skip_suffix s, [], [], [], (toks_skip s).symm, .nil, hnone⟩
    simp only [if_neg hb]
    by_cases hnul : (gettoken s).tok = '\x00'
    · simp only [if_pos hnul]
      refine Parses.ok ⟨gettoken_rest_suffix s, [], [], [], ?_, .nil, hnone⟩
      rw [gettoken_rest_nul hnul]
      exact (toks_skip s).symm
    simp only [if_neg hnul]
    by_cases hw : (gettoken s).tok = 'a'
    · simp only [hw]
      by_cases hmax : ws.length + 1 ≥ MAXARGS
      · simp only [if_pos hmax]
        exact Parses.panic (by decide)
      · simp only [if_neg hmax, addArg_wrap]
        have htoks : toks s = .word (gettoken s).word :: toks (gettoken s).rest := by
          rw [toks_cons hnul, Got.token, if_pos hw]
        have hlen : (ws ++ [(gettoken s).word]).length = ws.length + 1 := length_append
        refine Parses.andThen parseredirs_sound ?_
        rintro _ s' ⟨hs', ts, rs', hts, hrs, rfl⟩
        have hlt : s'.length < n := by
          rw [← hn]
          exact Nat.lt_of_le_of_lt hs'.length_le (gettoken_rest_lt hnul)
        rw [← wrap_append, ← hlen]
        refine (ih _ hlt (by omega) rfl).mono ?_
        rintro c'' s'' ⟨hs'', us, ws', rs'', hus, hargs, hmax', hc⟩
        refine ⟨hs''.trans (hs'.trans (gettoken_rest_suffix s)), _, (gettoken s).word :: ws', rs' ++ rs'',
          ?_, .cons hrs hargs, ?_⟩
        · rw [htoks, hts, hus, cons_append, append_assoc]
        · rw [append_assoc] at hmax' hc
          rw [append_assoc] at hc
          exact ⟨hmax', hc⟩
    · simp only [ne_eq, hw]
      exact Parses.panic (by decide)

/-- What a function for a nonterminal has done. -/
structure Parsed (x : Nonterminal) (s : Ptr) (c : Cmd Word) (s' : Ptr) : Prop where
  suffix : s' <:+ s
  derives : ∃ ts, toks s = ts ++ toks s' ∧ Derives x ts c

theorem parsebacks_sound {s : Ptr} :
    Parses (fun fuel => parsebacks fuel c s) fun c' s' => s' <:+ s ∧ ∃ k,
      toks s = replicate k (.sym '&') ++ toks s' ∧ c' = Cmd.back^[k] c := by
  induction hn : s.length using Nat.strong_induction_on generalizing s c with
  | _ n ih =>
    refine Parses.succ ?_
    simp only [parsebacks, peek_eq, gettoken_skip]
    by_cases hb : startsWith (toks s) ['&'] = true
    · simp only [if_pos hb]
      obtain ⟨hnul, htoks⟩ := toks_of_peek hb (by decide) (by decide)
      have hlt : (gettoken s).rest.length < n := hn ▸ gettoken_rest_lt hnul
      refine (ih _ hlt rfl).mono ?_
      rintro c' s' ⟨hs', k, hk, rfl⟩
      refine ⟨hs'.trans (gettoken_rest_suffix s), k + 1, ?_, rfl⟩
      rw [htoks, hk]
      rfl
    · simp only [if_neg hb]
      exact Parses.ok ⟨skip_suffix s, 0, (toks_skip s).symm, rfl⟩

/-- All three functions from `s`. -/
structure SoundAt (s : Ptr) : Prop where
  parseline : Parses (fun fuel => parseline fuel s) (Parsed .line s)
  parsepipe : Parses (fun fuel => parsepipe fuel s) (Parsed .pipe s)
  parseexec : Parses (fun fuel => parseexec fuel s) (Parsed .exec s)

section functions

variable {s : Ptr} (ih : ∀ s' : Ptr, s'.length < s.length → SoundAt s')

include ih

theorem parseblock_sound (hb : startsWith (toks s) ['('] = true) :
    Parses (fun fuel => parseblock fuel s) (Parsed .exec s) := by
  obtain ⟨hnul, htoks⟩ := toks_of_peek hb (by decide) (by decide)
  refine Parses.succ ?_
  simp only [Sh.parseblock, peek_eq, gettoken_skip, hb]
  refine Parses.andThen (ih _ (gettoken_rest_lt hnul)).parseline ?_
  rintro c t ⟨ht, ts, hts, hc⟩
  by_cases hclose : startsWith (toks t) [')'] = true
  · simp only [hclose]
    obtain ⟨-, htoks'⟩ := toks_of_peek hclose (by decide) (by decide)
    refine parseredirs_sound.mono ?_
    rintro _ t' ⟨ht', us, rs, hus, hrs, rfl⟩
    refine ⟨ht'.trans ((gettoken_rest_suffix t).trans (ht.trans (gettoken_rest_suffix s))),
      .sym '(' :: (ts ++ .sym ')' :: us), ?_, .block hc hrs⟩
    rw [htoks, hts, htoks', hus]
    simp
  · simp only [Bool.eq_false_iff.mpr hclose]
    exact Parses.panic (by decide)

theorem parseexec_sound : Parses (fun fuel => parseexec fuel s) (Parsed .exec s) := by
  refine Parses.succ ?_
  simp only [Sh.parseexec, peek_eq]
  by_cases hb : startsWith (toks s) ['('] = true
  · simp only [if_pos hb]
    refine (parseblock_sound (fun s' hlt => ih s' ?_) ?_).mono ?_
    · exact Nat.lt_of_lt_of_le hlt (skip_suffix s).length_le
    · rw [toks_skip]
      exact hb
    · rintro c t ⟨ht, ts, hts, hc⟩
      exact ⟨ht.trans (skip_suffix s), ts, by rw [← toks_skip s]; exact hts, hc⟩
  · simp only [if_neg hb]
    refine Parses.andThen parseredirs_sound ?_
    rintro _ t ⟨ht, ts, rs, hts, hrs, rfl⟩
    refine (@parseargs_sound _ [] _ (Nat.zero_le _)).mono ?_
    rintro _ t' ⟨ht', us, ws, rs', hus, hargs, hlen, rfl⟩
    refine ⟨ht'.trans (ht.trans (skip_suffix s)), ts ++ us, ?_, .exec hrs hargs hlen⟩
    rw [← toks_skip s, hts, hus, append_assoc]

theorem parsepipe_sound : Parses (fun fuel => parsepipe fuel s) (Parsed .pipe s) := by
  refine Parses.succ ?_
  simp only [Sh.parsepipe, peek_eq, gettoken_skip]
  refine Parses.andThen (parseexec_sound ih) ?_
  rintro c t ⟨ht, ts, hts, hc⟩
  by_cases hb : startsWith (toks t) ['|'] = true
  · simp only [if_pos hb]
    obtain ⟨hnul, htoks⟩ := toks_of_peek hb (by decide) (by decide)
    have hlt := Nat.lt_of_lt_of_le (gettoken_rest_lt hnul) ht.length_le
    refine Parses.andThen (ih _ hlt).parsepipe ?_
    rintro d u ⟨hu, us, hus, hd⟩
    refine Parses.ok ⟨hu.trans ((gettoken_rest_suffix t).trans ht), _, ?_, .pipe hc hd⟩
    rw [hts, htoks, hus]
    simp
  · simp only [if_neg hb]
    exact Parses.ok ⟨(skip_suffix t).trans ht, ts, by rw [toks_skip]; exact hts, .one hc⟩

theorem parseline_sound : Parses (fun fuel => parseline fuel s) (Parsed .line s) := by
  refine Parses.succ ?_
  simp only [Sh.parseline, peek_eq, gettoken_skip]
  refine Parses.andThen (parsepipe_sound ih) ?_
  rintro c t ⟨ht, ts, hts, hc⟩
  refine Parses.andThen parsebacks_sound ?_
  rintro _ u ⟨hu, k, hk, rfl⟩
  by_cases hb : startsWith (toks u) [';'] = true
  · simp only [if_pos hb]
    obtain ⟨hnul, htoks⟩ := toks_of_peek hb (by decide) (by decide)
    have hlt := Nat.lt_of_lt_of_le (gettoken_rest_lt hnul) (hu.trans ht).length_le
    refine Parses.andThen (ih _ hlt).parseline ?_
    rintro d v ⟨hv, us, hus, hd⟩
    refine Parses.ok ⟨hv.trans ((gettoken_rest_suffix u).trans (hu.trans ht)), _, ?_, .list k hc hd⟩
    rw [hts, hk, htoks, hus]
    simp
  · simp only [if_neg hb]
    refine Parses.ok ⟨(skip_suffix u).trans (hu.trans ht), _, ?_, .line k hc⟩
    rw [toks_skip, hts, hk, append_assoc]

end functions

variable {s : Ptr}

/-- The functions return on every line, and what they accept derives. -/
theorem soundAt (s : Ptr) : SoundAt s := by
  induction hn : s.length using Nat.strong_induction_on generalizing s with
  | _ n ih =>
    have ih' : ∀ s' : Ptr, s'.length < s.length → SoundAt s' := fun s' hlt => ih _ (hn ▸ hlt) s' rfl
    exact ⟨parseline_sound ih', parsepipe_sound ih', parseexec_sound ih'⟩

/-! ## Completeness -/

/-- The list ends, or goes on with one of the symbols. -/
def Stops (cs : List Char) (ts : List (Token Word)) : Prop := ∀ t ∈ ts.head?, ∃ c ∈ cs, t = .sym c

theorem Stops.mono {cs' : List Char} (h : Stops cs ts) (hcs : cs.all cs'.contains = true) :
    Stops cs' ts := by
  intro t ht
  obtain ⟨c, hc, rfl⟩ := h t ht
  exact ⟨c, contains_iff_mem.mp (all_eq_true.mp hcs c hc), rfl⟩

theorem Stops.cons {c : Char} (hc : c ∈ cs) (ts : List (Token Word)) : Stops cs (.sym c :: ts) := by
  rintro t ⟨⟩
  exact ⟨c, hc, rfl⟩

/-- `peek` does not see what the list does not go on with. -/
theorem Stops.startsWith {ds : List Char} (h : Stops cs ts)
    (hd : (cs.any fun c => ds.contains (symFirst c)) = false) : startsWith ts ds = false := by
  cases ts with
  | nil => rfl
  | cons t ts =>
    obtain ⟨c, hc, rfl⟩ := h t rfl
    exact Bool.eq_false_iff.mpr (any_eq_false.mp hd c hc)

/-- What may follow a nonterminal. -/
def Nonterminal.follow : Nonterminal → List Char
  | .line => [')']
  | .pipe => [')', '&', ';']
  | .exec => [')', '&', ';', '|']

theorem parseredirs_complete (h : Redirs ts rs) (hs : toks s = ts ++ rest)
    (hrest : startsWith rest ['<', '>'] = false) :
    ∃ s', Returns (fun fuel => parseredirs fuel c s) (.ok (wrap rs c) s') ∧ toks s' = rest := by
  induction h generalizing c s with
  | nil =>
    refine ⟨skip s, Returns.succ ((Returns.const _).congr fun fuel => ?_), ?_⟩
    · rw [nil_append] at hs
      simp only [parseredirs, peek_eq, hs, hrest]
      rfl
    · rw [toks_skip]
      exact hs
  | @cons op w m ts rs hm _ ih =>
    obtain ⟨hop, hfile⟩ := toks_sym hs
    obtain ⟨htok, rfl, hts⟩ := toks_word hfile
    obtain ⟨s', hret, hs'⟩ := ih hts
    refine ⟨s', Returns.succ (hret.congr fun fuel => ?_), hs'⟩
    have hpeek : startsWith (toks s) ['<', '>'] = true := by
      rw [hs]
      exact redirMode_first hm
    simp only [parseredirs, peek_eq, gettoken_skip, hpeek, if_true, htok, ne_eq, not_true_eq_false,
      if_false, hop, redircmd_eq hm]

/-- Between two words there is no redirection left. -/
theorem Args.startsWith {us : List (Token Word)} (h : Args us ws rs) (hv : ∀ t ∈ us, t.Valid)
    (hrest : Stops Nonterminal.exec.follow rest) (hcs : cs.all symbols.contains = true)
    (hfollow : (Nonterminal.exec.follow.any fun c => cs.contains (symFirst c)) = false) :
    startsWith (us ++ rest) cs = false := by
  cases h with
  | nil => exact hrest.startsWith hfollow
  | cons hrs hargs => exact startsWith_word (hv _ mem_cons_self) hcs

theorem parseargs_complete {us : List (Token Word)} (h : Args us ws rs) (rs₀ : List (Redir Word))
    (ws₀ : List Word) (hs : toks s = us ++ rest) (hrest : Stops Nonterminal.exec.follow rest)
    (hlen : (ws₀ ++ ws).length ≤ MAXARGS - 1) :
    ∃ s', Returns (fun fuel => parseargs fuel (wrap rs₀ (.exec ws₀)) ws₀.length s)
      (.ok (wrap (rs₀ ++ rs) (.exec (ws₀ ++ ws))) s') ∧ toks s' = rest := by
  induction h generalizing s rs₀ ws₀ with
  | nil =>
    rw [nil_append] at hs
    rw [append_nil, append_nil]
    cases rest with
    | nil =>
      have hnul := toks_eq_nil hs
      refine ⟨(gettoken s).rest, Returns.succ ((Returns.const _).congr fun fuel => ?_), ?_⟩
      · simp only [parseargs, peek_eq, gettoken_skip, hs, startsWith, Bool.false_eq_true, if_false,
          hnul, if_true]
      · rw [gettoken_rest_nul hnul, toks_skip]
        exact hs
    | cons t rest =>
      have hb : startsWith (t :: rest) ['|', ')', '&', ';'] = true := by
        obtain ⟨d, hd, rfl⟩ := hrest t rfl
        have hall : (Nonterminal.exec.follow.all fun d =>
            ['|', ')', '&', ';'].contains (symFirst d)) = true := by decide
        exact all_eq_true.mp hall d hd
      refine ⟨skip s, Returns.succ ((Returns.const _).congr fun fuel => ?_), ?_⟩
      · simp only [parseargs, peek_eq, hs, hb, if_true]
      · rw [toks_skip]
        exact hs
  | @cons w ts us ws rs rs' hrs hargs ih =>
    have hvalid : ∀ t ∈ Token.word w :: (ts ++ us), t.Valid := fun t ht =>
      toks_valid (hs ▸ mem_append_left rest ht)
    obtain ⟨htok, rfl, hts⟩ := toks_word hs
    have hnext : startsWith (us ++ rest) ['<', '>'] = false :=
      hargs.startsWith (fun t ht => hvalid t (mem_cons_of_mem _ (mem_append_right ts ht)))
        hrest (by decide) (by decide)
    have hts : toks (gettoken s).rest = ts ++ (us ++ rest) := hts.trans (append_assoc ts us rest)
    obtain ⟨s₁, hret₁, hs₁⟩ := parseredirs_complete hrs hts hnext
    have hargc : ws₀.length + 1 = (ws₀ ++ [(gettoken s).word]).length := by simp
    rw [← wrap_append] at hret₁
    rw [append_cons] at hlen ⊢
    obtain ⟨s', hret, hs'⟩ := ih (rs₀ ++ rs) _ hs₁ hlen
    refine ⟨s', Returns.succ ?_, hs'⟩
    have hb : startsWith (toks s) ['|', ')', '&', ';'] = false := by
      rw [hs]
      exact startsWith_word (hvalid _ mem_cons_self) (by decide)
    have hmax : ¬ ws₀.length + 1 ≥ MAXARGS := by
      rw [length_append] at hlen
      omega
    simp only [parseargs, peek_eq, gettoken_skip, hb, htok, if_neg hmax, addArg_wrap]
    rw [← append_assoc, hargc]
    exact Returns.andThen hret₁ hret

theorem parsebacks_complete (hrest : startsWith rest ['&'] = false) (k : Nat) (hs : toks s = replicate k (.sym '&') ++ rest) :
    ∃ s', Returns (fun fuel => parsebacks fuel c s) (.ok (Cmd.back^[k] c) s') ∧ toks s' = rest := by
  induction k generalizing c s with
  | zero =>
    rw [replicate_zero, nil_append] at hs
    refine ⟨skip s, Returns.succ ((Returns.const _).congr fun fuel => ?_), by rw [toks_skip]; exact hs⟩
    simp only [parsebacks, peek_eq, hs, hrest]
    rfl
  | succ k ih =>
    obtain ⟨s', hret, hs'⟩ := ih (toks_sym hs).2
    refine ⟨s', Returns.succ (hret.congr fun fuel => ?_), hs'⟩
    have hb : startsWith (toks s) ['&'] = true := by
      rw [hs]
      rfl
    simp only [parsebacks, peek_eq, gettoken_skip, hb, if_true]

/-- The function for a nonterminal. -/
def parse : Nonterminal → Nat → Ptr → Option (Out (Cmd Word))
  | .line => parseline
  | .pipe => parsepipe
  | .exec => parseexec

theorem parse_complete {x : Nonterminal} (h : Derives x ts c) (hs : toks s = ts ++ rest)
    (hrest : Stops x.follow rest) :
    ∃ s', Returns (fun fuel => parse x fuel s) (.ok c s') ∧ toks s' = rest := by
  induction h generalizing s rest with
  | @line ts c k _ ih =>
    rw [append_assoc] at hs
    have hpipe : Stops Nonterminal.pipe.follow (replicate k (.sym '&') ++ rest) := by
      cases k with
      | zero => exact hrest.mono (by decide)
      | succ k => exact Stops.cons (by decide) _
    obtain ⟨s₁, hret₁, hs₁⟩ := ih hs hpipe
    obtain ⟨s₂, hret₂, hs₂⟩ := parsebacks_complete (hrest.startsWith (by decide)) k hs₁
    refine ⟨skip s₂, Returns.succ ?_, by rw [toks_skip]; exact hs₂⟩
    simp only [parse, parseline, peek_eq]
    refine Returns.andThen hret₁ (Returns.andThen hret₂ ?_)
    have hend : startsWith rest [';'] = false := hrest.startsWith (by decide)
    simp only [hs₂, hend]
    exact Returns.const _
  | @list ts us c d k _ _ ihc ihd =>
    rw [append_assoc, append_assoc] at hs
    have hpipe : Stops Nonterminal.pipe.follow
        (replicate k (.sym '&') ++ (.sym ';' :: us ++ rest)) := by
      cases k with
      | zero | succ => exact Stops.cons (by decide) _
    obtain ⟨s₁, hret₁, hs₁⟩ := ihc hs hpipe
    obtain ⟨s₂, hret₂, hs₂⟩ := parsebacks_complete rfl k hs₁
    obtain ⟨s₃, hret₃, hs₃⟩ := ihd (toks_sym hs₂).2 hrest
    refine ⟨s₃, Returns.succ ?_, hs₃⟩
    simp only [parse, parseline, peek_eq, gettoken_skip]
    refine Returns.andThen hret₁ (Returns.andThen hret₂ ?_)
    simp only [hs₂]
    exact Returns.andThen hret₃ (Returns.const _)
  | @one ts c _ ih =>
    obtain ⟨s₁, hret₁, hs₁⟩ := ih hs (hrest.mono (by decide))
    refine ⟨skip s₁, Returns.succ ?_, by rw [toks_skip]; exact hs₁⟩
    simp only [parse, parsepipe, peek_eq]
    refine Returns.andThen hret₁ ?_
    have hend : startsWith rest ['|'] = false := hrest.startsWith (by decide)
    simp only [hs₁, hend]
    exact Returns.const _
  | @pipe ts us c d _ _ ihc ihd =>
    rw [append_assoc] at hs
    obtain ⟨s₁, hret₁, hs₁⟩ := ihc hs (Stops.cons (by decide) _)
    obtain ⟨s₂, hret₂, hs₂⟩ := ihd (toks_sym hs₁).2 hrest
    refine ⟨s₂, Returns.succ ?_, hs₂⟩
    simp only [parse, parsepipe, peek_eq, gettoken_skip]
    refine Returns.andThen hret₁ ?_
    simp only [hs₁]
    exact Returns.andThen hret₂ (Returns.const _)
  | @block ts us c rs _ hrs ih =>
    have hline : toks (gettoken s).rest = ts ++ (.sym ')' :: us ++ rest) :=
      (toks_sym hs).2.trans (append_assoc ts (.sym ')' :: us) rest)
    obtain ⟨s₁, hret₁, hs₁⟩ := ih hline (Stops.cons (by decide) _)
    obtain ⟨s₂, hret₂, hs₂⟩ :=
      parseredirs_complete hrs (toks_sym hs₁).2 (hrest.startsWith (by decide))
    refine ⟨s₂, Returns.succ ?_, hs₂⟩
    have hopen : startsWith (toks s) ['('] = true := by
      rw [hs]
      rfl
    simp only [parse, parseexec]
    refine Returns.succ ?_
    simp only [parseblock, peek_eq, toks_skip, gettoken_skip, hopen]
    refine Returns.andThen hret₁ ?_
    simp only [hs₁]
    exact hret₂
  | @exec ts us ws rs rs' hrs hargs hlen =>
    rw [append_assoc] at hs
    have hvalid : ∀ t ∈ ts ++ us, t.Valid := by
      intro t ht
      refine toks_valid (s := s) ?_
      rw [hs, ← append_assoc]
      exact mem_append_left rest ht
    have hus : ∀ cs : List Char, cs.all symbols.contains = true →
        (Nonterminal.exec.follow.any fun c => cs.contains (symFirst c)) = false →
        startsWith (us ++ rest) cs = false :=
      fun cs => hargs.startsWith (fun t ht => hvalid t (mem_append_right ts ht)) hrest
    have hopen : startsWith (toks s) ['('] = false := by
      rw [hs]
      cases hrs with
      | nil => exact hus _ (by decide) (by decide)
      | @cons op w m ts rs hm hrs =>
        have hfirst := redirMode_first hm
        have hall : (['<', '>'].any ['('].contains) = false := by decide
        exact Bool.eq_false_iff.mpr
          (any_eq_false.mp hall _ (contains_iff_mem.mp hfirst))
    obtain ⟨s₁, hret₁, hs₁⟩ := parseredirs_complete hrs
      (by rw [toks_skip]; exact hs) (hus _ (by decide) (by decide))
    obtain ⟨s', hret, hs'⟩ := parseargs_complete hargs rs [] hs₁ hrest hlen
    refine ⟨s', Returns.succ ?_, hs'⟩
    simp only [parse, parseexec, peek_eq, hopen]
    exact Returns.andThen hret₁ hret

/-! ## The words of a command -/

section words

variable {ω ω' : Type}

/-- Every word of a command satisfies `P`. -/
def Cmd.All (P : ω → Prop) : Cmd ω → Prop
  | exec argv => ∀ w ∈ argv, P w
  | redir cmd file _ _ => cmd.All P ∧ P file
  | pipe left right => left.All P ∧ right.All P
  | list left right => left.All P ∧ right.All P
  | back cmd => cmd.All P

theorem Cmd.All.map_congr {f g : ω → ω'} {c : Cmd ω} (h : c.All fun w => f w = g w) :
    c.map f = c.map g := by
  induction c with
  | exec argv => exact congrArg Cmd.exec (map_congr_left h)
  | redir cmd file mode fd ih =>
    show Cmd.redir (cmd.map f) (f file) mode fd = Cmd.redir (cmd.map g) (g file) mode fd
    rw [ih h.1, h.2]
  | pipe left right ihl ihr =>
    show Cmd.pipe (left.map f) (right.map f) = Cmd.pipe (left.map g) (right.map g)
    rw [ihl h.1, ihr h.2]
  | list left right ihl ihr =>
    show Cmd.list (left.map f) (right.map f) = Cmd.list (left.map g) (right.map g)
    rw [ihl h.1, ihr h.2]
  | back cmd ih => exact congrArg Cmd.back (ih h)

theorem Cmd.All.imp {P Q R : ω → Prop} {c : Cmd ω} (hP : c.All P) (hQ : c.All Q)
    (h : ∀ w, P w → Q w → R w) : c.All R := by
  induction c with
  | exec argv => exact fun w hw => h w (hP w hw) (hQ w hw)
  | redir cmd file mode fd ih => exact ⟨ih hP.1 hQ.1, h file hP.2 hQ.2⟩
  | pipe _ _ ihl ihr | list _ _ ihl ihr => exact ⟨ihl hP.1 hQ.1, ihr hP.2 hQ.2⟩
  | back cmd ih => exact ih hP hQ

variable {P : ω → Prop} {c : Cmd ω} {ts : List (Token ω)} {rs : List (Redir ω)}

theorem Cmd.All.backs (h : c.All P) (k : Nat) : (Cmd.back^[k] c).All P := by
  induction k generalizing c with
  | zero => exact h
  | succ k ih => exact ih h

theorem Cmd.All.wrap (h : c.All P) (hrs : ∀ r ∈ rs, P r.1) : (wrap rs c).All P := by
  induction rs generalizing c with
  | nil => exact h
  | cons r rs ih =>
    rw [forall_mem_cons] at hrs
    exact ih ⟨h, hrs.1⟩ hrs.2

theorem Redirs.all (h : Redirs ts rs) (hP : ∀ w, .word w ∈ ts → P w) : ∀ r ∈ rs, P r.1 := by
  induction h with
  | nil => nofun
  | cons _ _ ih =>
    simp only [mem_cons, reduceCtorEq, false_or] at hP
    exact forall_mem_cons.mpr ⟨hP _ (Or.inl rfl), ih fun w hw => hP w (Or.inr hw)⟩

theorem Args.all {ws : List ω} (h : Args ts ws rs) (hP : ∀ w, .word w ∈ ts → P w) :
    (∀ w ∈ ws, P w) ∧ ∀ r ∈ rs, P r.1 := by
  induction h with
  | nil => exact ⟨nofun, nofun⟩
  | cons hrs _ ih =>
    simp only [mem_cons, mem_append] at hP
    obtain ⟨hws, hrs'⟩ := ih fun w hw => hP w (Or.inr (Or.inr hw))
    refine ⟨forall_mem_cons.mpr ⟨hP _ (Or.inl rfl), hws⟩, forall_mem_append.mpr ⟨?_, hrs'⟩⟩
    exact hrs.all fun w hw => hP w (Or.inr (Or.inl hw))

/-- The words of a command are among the tokens it derives from. -/
theorem Derives.all {x : Nonterminal} (h : Derives x ts c) (hP : ∀ w, .word w ∈ ts → P w) :
    c.All P := by
  induction h with
  | line k _ ih => exact (ih fun w hw => hP w (mem_append_left _ hw)).backs k
  | list k _ _ ihc ihd =>
    refine ⟨(ihc fun w hw => hP w ?_).backs k, ihd fun w hw => hP w ?_⟩
    · exact mem_append_left _ (mem_append_left _ hw)
    · exact mem_append_right _ (mem_cons_of_mem _ hw)
  | one _ ih => exact ih hP
  | pipe _ _ ihc ihd =>
    exact ⟨ihc fun w hw => hP w (mem_append_left _ hw),
      ihd fun w hw => hP w (mem_append_right _ (mem_cons_of_mem _ hw))⟩
  | block _ hrs ih =>
    refine (ih fun w hw => hP w ?_).wrap (hrs.all fun w hw => hP w ?_)
    · exact mem_cons_of_mem _ (mem_append_left _ hw)
    · exact mem_cons_of_mem _ (mem_append_right _ (mem_cons_of_mem _ hw))
  | exec hrs hargs _ =>
    obtain ⟨hws, hrs'⟩ := hargs.all fun w hw => hP w (mem_append_right _ hw)
    refine Cmd.All.wrap hws (forall_mem_append.mpr ⟨?_, hrs'⟩)
    exact hrs.all fun w hw => hP w (mem_append_left _ hw)

/-! ## Words of another type -/

variable (f : ω → ω')

theorem map_wrap : (wrap rs c).map f = wrap (rs.map (Prod.map f id)) (c.map f) := by
  induction rs generalizing c with
  | nil => rfl
  | cons r rs ih => exact ih

theorem map_backs (k : Nat) : (Cmd.back^[k] c).map f = Cmd.back^[k] (c.map f) := by
  induction k generalizing c with
  | zero => rfl
  | succ k ih => exact ih

variable {f} {x : Nonterminal} {us : List (Token ω')} {rs' : List (Redir ω')}

theorem Redirs.map (h : Redirs ts rs) :
    Redirs (ts.map (Token.map f)) (rs.map (Prod.map f id)) := by
  induction h with
  | nil => exact .nil
  | cons hm _ ih => exact .cons hm ih

theorem Args.map {ws : List ω} (h : Args ts ws rs) :
    Args (ts.map (Token.map f)) (ws.map f) (rs.map (Prod.map f id)) := by
  induction h with
  | nil => exact .nil
  | cons hrs _ ih =>
    rw [map_cons, map_append, map_append]
    exact .cons hrs.map ih

theorem Derives.map (h : Derives x ts c) : Derives x (ts.map (Token.map f)) (c.map f) := by
  induction h with
  | line k _ ih =>
    rw [map_append, map_replicate, map_backs]
    exact .line k ih
  | list k _ _ ihc ihd =>
    rw [map_append, map_append, map_replicate, Cmd.map, map_backs]
    exact .list k ihc ihd
  | one _ ih => exact .one ih
  | pipe _ _ ihc ihd =>
    rw [map_append]
    exact .pipe ihc ihd
  | block _ hrs ih =>
    rw [map_cons, map_append, map_wrap]
    exact .block ih hrs.map
  | exec hrs hargs hlen =>
    rw [map_append, map_wrap, map_append]
    exact .exec hrs.map hargs.map (by rw [length_map]; exact hlen)

theorem map_eq_sym_cons {op : Char} (h : ts.map (Token.map f) = .sym op :: us) :
    ∃ ts', ts = .sym op :: ts' ∧ ts'.map (Token.map f) = us := by
  obtain ⟨t, ts', rfl, ht, hus⟩ := map_eq_cons_iff.mp h
  cases t with
  | word w => cases ht
  | sym op' =>
    cases ht
    exact ⟨ts', rfl, hus⟩

theorem map_eq_word_cons {w : ω'} (h : ts.map (Token.map f) = .word w :: us) :
    ∃ v ts', ts = .word v :: ts' ∧ f v = w ∧ ts'.map (Token.map f) = us := by
  obtain ⟨t, ts', rfl, ht, hus⟩ := map_eq_cons_iff.mp h
  cases t with
  | word v =>
    cases ht
    exact ⟨v, ts', rfl, rfl, hus⟩
  | sym op => cases ht

theorem map_eq_replicate {op : Char} {k : Nat} (h : ts.map (Token.map f) = replicate k (.sym op)) :
    ts = replicate k (.sym op) := by
  induction k generalizing ts with
  | zero => exact map_eq_nil_iff.mp h
  | succ k ih =>
    obtain ⟨ts', rfl, h'⟩ := map_eq_sym_cons h
    rw [ih h']
    rfl

theorem Redirs.of_map (h : Redirs us rs') (hus : ts.map (Token.map f) = us) :
    ∃ rs, Redirs ts rs ∧ rs.map (Prod.map f id) = rs' := by
  induction h generalizing ts with
  | nil =>
    rw [map_eq_nil_iff.mp hus]
    exact ⟨[], .nil, rfl⟩
  | cons hm _ ih =>
    obtain ⟨_, rfl, h₁⟩ := map_eq_sym_cons hus
    obtain ⟨_, _, rfl, rfl, h₂⟩ := map_eq_word_cons h₁
    obtain ⟨rs, hrs, rfl⟩ := ih h₂
    exact ⟨_, .cons hm hrs, rfl⟩

theorem Args.of_map {ws' : List ω'} (h : Args us ws' rs') (hus : ts.map (Token.map f) = us) :
    ∃ ws rs, Args ts ws rs ∧ ws.map f = ws' ∧ rs.map (Prod.map f id) = rs' := by
  induction h generalizing ts with
  | nil =>
    rw [map_eq_nil_iff.mp hus]
    exact ⟨[], [], .nil, rfl, rfl⟩
  | cons hrs _ ih =>
    obtain ⟨w, _, rfl, rfl, h⟩ := map_eq_word_cons hus
    obtain ⟨ts₁, ts₂, rfl, h₁, h₂⟩ := map_eq_append_iff.mp h
    obtain ⟨rs, hrs', rfl⟩ := hrs.of_map h₁
    obtain ⟨ws, rs', hargs, rfl, rfl⟩ := ih h₂
    exact ⟨w :: ws, rs ++ rs', .cons hrs' hargs, rfl, map_append⟩

/-- A derivation does not look at the words. -/
theorem Derives.of_map {c' : Cmd ω'} (h : Derives x us c') (hus : ts.map (Token.map f) = us) :
    ∃ c, Derives x ts c ∧ c.map f = c' := by
  induction h generalizing ts with
  | line k _ ih =>
    obtain ⟨ts₁, ts₂, rfl, h₁, h₂⟩ := map_eq_append_iff.mp hus
    obtain ⟨c, hc, rfl⟩ := ih h₁
    rw [map_eq_replicate h₂]
    exact ⟨_, .line k hc, map_backs f k⟩
  | list k _ _ ihc ihd =>
    obtain ⟨_, _, rfl, h, h₃⟩ := map_eq_append_iff.mp hus
    obtain ⟨ts₁, ts₂, rfl, h₁, h₂⟩ := map_eq_append_iff.mp h
    obtain ⟨_, rfl, h₄⟩ := map_eq_sym_cons h₃
    obtain ⟨c, hc, rfl⟩ := ihc h₁
    obtain ⟨d, hd, rfl⟩ := ihd h₄
    rw [map_eq_replicate h₂]
    exact ⟨_, .list k hc hd, by rw [Cmd.map, map_backs]⟩
  | one _ ih =>
    obtain ⟨c, hc, hmap⟩ := ih hus
    exact ⟨c, .one hc, hmap⟩
  | pipe _ _ ihc ihd =>
    obtain ⟨ts₁, _, rfl, h₁, h₂⟩ := map_eq_append_iff.mp hus
    obtain ⟨_, rfl, h₃⟩ := map_eq_sym_cons h₂
    obtain ⟨c, hc, rfl⟩ := ihc h₁
    obtain ⟨d, hd, rfl⟩ := ihd h₃
    exact ⟨_, .pipe hc hd, rfl⟩
  | block _ hrs ih =>
    obtain ⟨_, rfl, h⟩ := map_eq_sym_cons hus
    obtain ⟨ts₁, _, rfl, h₁, h₂⟩ := map_eq_append_iff.mp h
    obtain ⟨_, rfl, h₃⟩ := map_eq_sym_cons h₂
    obtain ⟨c, hc, rfl⟩ := ih h₁
    obtain ⟨rs, hrs', rfl⟩ := hrs.of_map h₃
    exact ⟨_, .block hc hrs', map_wrap f⟩
  | exec hrs hargs hlen =>
    obtain ⟨ts₁, ts₂, rfl, h₁, h₂⟩ := map_eq_append_iff.mp hus
    obtain ⟨rs, hrs', rfl⟩ := hrs.of_map h₁
    obtain ⟨ws, rs', hargs', rfl, rfl⟩ := hargs.of_map h₂
    rw [length_map] at hlen
    exact ⟨_, .exec hrs' hargs' hlen, by rw [map_wrap, map_append]; rfl⟩

end words

variable {line : List Char}

/-- The line while the words are being terminated: what is part of a word is as before. -/
structure Keeps (l buf : List Char) : Prop where
  length : buf.length = l.length
  chars : ∀ (i : Nat) (c : Char), l[i]? = some c → wordChar c = true → buf[i]? = some c

/-- The word `w` is terminated. -/
def Done (n : Nat) (buf : List Char) (w : Word) : Prop :=
  ∀ c, buf[n - w.2.length]? = some c → c = '\x00'

/-- Where a word stands in the line. -/
theorem IsWord.append (hw : IsWord line w) :
    ∃ pre, line = pre ++ (text w ++ w.2) ∧ line.length - w.1.length = pre.length ∧
      line.length - w.2.length = pre.length + (text w).length := by
  obtain ⟨pre, hpre⟩ := hw.suffix
  have hlen := congrArg length hpre
  have hsplit := congrArg length hw.split
  rw [length_append] at hlen hsplit
  refine ⟨pre, by rw [hw.split, hpre], ?_, ?_⟩ <;> omega

theorem Keeps.nul (h : Keeps line buf) (hw : IsWord line w) :
    Keeps line (nul line.length buf w.2) := by
  obtain ⟨pre, hline, -, hend⟩ := hw.append
  refine ⟨by rw [Sh.nul, length_set]; exact h.length, fun i c hi hc => ?_⟩
  have hne : line.length - w.2.length ≠ i := by
    rintro rfl
    have hhead : w.2.head? = some c := by
      rw [hend, hline, ← append_assoc, ← length_append,
        getElem?_append_right le_rfl, Nat.sub_self] at hi
      rw [head?_eq_getElem?]
      exact hi
    rw [hw.stop c hhead] at hc
    cases hc
  rw [Sh.nul, getElem?_set_ne hne]
  exact h.chars i c hi hc

theorem done_nul (n : Nat) (buf : List Char) (w : Word) : Done n (nul n buf w.2) w := by
  intro c hc
  rw [nul, getElem?_set, if_pos rfl] at hc
  split at hc
  · exact (Option.some.inj hc).symm
  · cases hc

theorem Done.nul {n : Nat} (h : Done n buf w) (p : Ptr) : Done n (nul n buf p) w := by
  intro c hc
  rw [Sh.nul, getElem?_set] at hc
  split at hc
  · split at hc
    · exact (Option.some.inj hc).symm
    · cases hc
  · exact h c hc

/-- What `nulterminate` does to the line. -/
structure Terminated (line : List Char) (cmd : Cmd Word) (buf buf' : List Char) : Prop where
  keeps : Keeps line buf'
  mono : ∀ w, Done line.length buf w → Done line.length buf' w
  done : cmd.All (Done line.length buf')

theorem terminated_argv {argv : List Word} (hargv : ∀ w ∈ argv, IsWord line w)
    (h : Keeps line buf) :
    Terminated line (.exec argv) buf (argv.foldl (fun buf w => nul line.length buf w.2) buf) := by
  induction argv generalizing buf with
  | nil => exact ⟨h, fun _ hw => hw, nofun⟩
  | cons w argv ih =>
    have hrest := ih (fun v hv => hargv v (mem_cons_of_mem w hv)) (h.nul (hargv w mem_cons_self))
    refine ⟨hrest.keeps, fun v hv => hrest.mono v (hv.nul w.2), fun v hv => ?_⟩
    rcases mem_cons.mp hv with rfl | hv
    · exact hrest.mono v (done_nul line.length buf v)
    · exact hrest.done v hv

theorem Terminated.trans {left right : Cmd Word} {b₁ b₂ : List Char}
    (hl : Terminated line left buf b₁) (hr : Terminated line right b₁ b₂) :
    (∀ w, Done line.length buf w → Done line.length b₂ w) ∧
      left.All (Done line.length b₂) ∧ right.All (Done line.length b₂) :=
  ⟨fun w hw => hr.mono w (hl.mono w hw), hl.done.imp hl.done fun w hw _ => hr.mono w hw, hr.done⟩

theorem nulterminate_spec {cmd : Cmd Word} (hcmd : cmd.All (IsWord line)) (h : Keeps line buf) :
    Terminated line cmd buf (nulterminate line.length cmd buf) := by
  induction cmd generalizing buf with
  | exec argv => exact terminated_argv hcmd h
  | redir cmd file mode fd ih =>
    have hin := ih hcmd.1 h
    refine ⟨hin.keeps.nul hcmd.2, fun w hw => (hin.mono w hw).nul file.2, ?_, done_nul _ _ file⟩
    exact hin.done.imp hin.done fun w hw _ => hw.nul file.2
  | pipe _ _ ihl ihr | list _ _ ihl ihr =>
    have hl := ihl hcmd.1 h
    have hr := ihr hcmd.2 hl.keeps
    exact ⟨hr.keeps, (hl.trans hr).1, (hl.trans hr).2⟩
  | back cmd ih =>
    have hin := ih hcmd h
    exact ⟨hin.keeps, hin.mono, hin.done⟩

/-- A terminated word reads as it stood in the line. -/
theorem IsWord.cstring (hw : IsWord line w) (hline : '\x00' ∉ line) (hbuf : Keeps line buf)
    (hdone : Done line.length buf w) : cstring line.length buf w.1 = text w := by
  obtain ⟨pre, heq, hstart, hend⟩ := hw.append
  have hchar : ∀ j < (text w).length, buf[pre.length + j]? = (text w)[j]? := by
    intro j hj
    have hget : (text w)[j]? = some (text w)[j] := getElem?_eq_getElem hj
    rw [hget]
    refine hbuf.chars _ _ ?_ (hw.chars _ (getElem_mem hj))
    rw [heq, getElem?_append_right (Nat.le_add_right _ _), Nat.add_sub_cancel_left,
      getElem?_append_left hj, hget]
  have hsplit : buf.drop pre.length = text w ++ buf.drop (pre.length + (text w).length) := by
    refine ext_getElem? fun j => ?_
    rw [getElem?_drop]
    by_cases hj : j < (text w).length
    · rw [hchar j hj, getElem?_append_left hj]
    · rw [getElem?_append_right (by omega), getElem?_drop]
      congr 1
      omega
  have htext : ∀ c ∈ text w, (c != '\x00') = true := by
    intro c hc
    have hmem : c ∈ line := by
      rw [heq]
      exact mem_append_right pre (mem_append_left w.2 hc)
    rw [bne_iff_ne]
    rintro rfl
    exact hline hmem
  have hstop : (buf.drop (pre.length + (text w).length)).takeWhile (· != '\x00') = [] := by
    rw [← hend]
    cases hrest : buf.drop (line.length - w.2.length) with
    | nil => rfl
    | cons c cs =>
      have hc : buf[line.length - w.2.length]? = some c := by
        have hhead := congrArg head? hrest
        rwa [head?_drop] at hhead
      rw [hdone c hc]
      rfl
  rw [Sh.cstring, hstart, hsplit, takeWhile_append_of_pos htext, hstop, append_nil]

/-! ## A whole line -/

/-- The characters up to the NUL. -/
def lineOf (buf : List Char) : List Char := buf.takeWhile (· != '\x00')

theorem nul_not_mem_lineOf (buf : List Char) : '\x00' ∉ lineOf buf := by
  intro h
  have := mem_takeWhile_imp h
  cases this

/-- The tokens as they stand in the line. -/
def texts (s : Ptr) : List (Token (List Char)) := (toks s).map (Token.map text)

theorem derives_words {x : Nonterminal} {cmd : Cmd Word} (h : Derives x (toks line) cmd) :
    cmd.All (Delimited line) :=
  h.all fun _ => At.delimited ⟨[], rfl, by simp⟩

/-- The words of a command after `nulterminate` are those of the line. -/
theorem nulterminate_text (hline : '\x00' ∉ line) {cmd : Cmd Word} (hcmd : cmd.All (Delimited line)) :
    (cmd.map fun w => cstring line.length (nulterminate line.length cmd line) w.1) = cmd.map text := by
  have hwords : cmd.All (IsWord line) := hcmd.imp hcmd fun _ hw _ => hw.toIsWord
  have hterm := nulterminate_spec hwords ⟨rfl, fun _ _ h _ => h⟩
  exact Cmd.All.map_congr (hwords.imp hterm.done fun w hw hdone => hw.cstring hline hterm.keeps hdone)

/-- What `parsecmd` returns derives, word by word. -/
theorem parsecmd_sound (buf : List Char) :
    Parses (fun fuel => parsecmd fuel buf) fun cmd out =>
      Derives .line (toks (lineOf buf)) cmd ∧
        out = nulterminate (lineOf buf).length cmd (lineOf buf) := by
  refine Parses.andThen (soundAt (lineOf buf)).parseline ?_
  rintro cmd s ⟨hs, ts, hts, hd⟩
  simp only [peek_eq]
  by_cases hend : skip s = []
  · simp only [hend]
    have hnil : toks s = [] := by
      rw [← toks_skip, hend]
      exact toks_nil rfl
    refine Parses.ok ⟨?_, rfl⟩
    rw [hts, hnil, append_nil]
    exact hd
  · simp only [ne_eq, hend]
    exact Parses.panic (by decide)

/-- A line that derives is accepted, with the tree of the derivation. -/
theorem parsecmd_complete {cmd : Cmd Word} (h : Derives .line (toks (lineOf buf)) cmd) :
    Returns (fun fuel => parsecmd fuel buf)
      (.ok cmd (nulterminate (lineOf buf).length cmd (lineOf buf))) := by
  obtain ⟨s, hret, hs⟩ := parse_complete h (append_nil _).symm nofun
  obtain ⟨r, hr, hend⟩ := (soundAt (lineOf buf)).parseline
  obtain rfl := hret.unique hr
  have hnul : '\x00' ∉ s := fun hmem => nul_not_mem_lineOf buf (hend.suffix.subset hmem)
  refine Returns.andThen hret ?_
  simp only [peek_eq, skip_of_toks hs hnul]
  exact Returns.const _

/-- The parser returns on every line.  It returns a command exactly when the tokens of the line derive,
    and that of the derivation; otherwise it panics. -/
theorem parsecmd_grammar (buf : List Char) :
    (∃ r, Returns (fun fuel => parsecmd fuel buf) r) ∧
    (∀ c, Derives .line (texts (lineOf buf)) c ↔
      ∃ cmd out, Returns (fun fuel => parsecmd fuel buf) (.ok cmd out) ∧
        (cmd.map fun w => cstring (lineOf buf).length out w.1) = c) ∧
    ((∀ c, ¬ Derives .line (texts (lineOf buf)) c) →
      ∃ msg ∈ syntaxErrors, Returns (fun fuel => parsecmd fuel buf) (.panic msg)) := by
  have htext : ∀ cmd, Derives .line (toks (lineOf buf)) cmd → _ = cmd.map text := fun cmd h =>
    nulterminate_text (nul_not_mem_lineOf buf) (derives_words h)
  obtain ⟨r, hr, hend⟩ := parsecmd_sound buf
  refine ⟨⟨r, hr⟩, fun c => ⟨fun h => ?_, ?_⟩, fun hnone => ?_⟩
  · obtain ⟨cmd, hcmd, rfl⟩ := h.of_map rfl
    exact ⟨cmd, _, parsecmd_complete hcmd, htext cmd hcmd⟩
  · rintro ⟨cmd, out, hret, rfl⟩
    obtain rfl := hret.unique hr
    obtain ⟨hcmd, rfl⟩ := hend
    rw [htext cmd hcmd]
    exact hcmd.map
  · cases r with
    | panic msg => exact ⟨msg, hend, hr⟩
    | ok cmd out => exact absurd hend.1.map (hnone _)

end Xv6.Sh
