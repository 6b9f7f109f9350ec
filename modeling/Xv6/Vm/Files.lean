/-
  The file table and the pipes.

  A pipe's page belongs to the pipe as long as one of its two ends is an open file; the last
  `fileclose` of the second end gives it back.  The specifications say how `Sys` changes: the
  reference counts, and for `pipealloc` that the new page is now owned by the pipe.
-/
import Xv6.Vm.Table

namespace Xv6

open Finset Function Multiset
open Lib.Prog hiding update

section files

variable {c k : Kernel} {refs : Nat → Nat} {H : Multiset Nat} {f pg : Nat} {w : Bool}
  {file : Nat → File} {pipe : Nat → Pipe}

/-! ## Changes of the file table -/

/-- The file table and the pipe flags may change if the pages of open pipes stay the same. -/
theorem Sys.setFiles (h : Sys c k refs H) {file' : Nat → File} {pipe' : Nat → Pipe}
    {refs' : Nat → Nat} {G : Multiset Nat} (hf : Files file' pipe' refs')
    (hp : (pipeSet file').val + G = (pipeSet k.file).val + H) :
    Sys c { k with file := file', pipe := pipe' } refs' G := by
  refine ⟨?_, h.procs, hf, h.kend, h.trampoline, h.kstack, h.kpages⟩
  rw [← h.frames]
  unfold Kernel.owned
  calc ∑ p ∈ procSlots, procFrames k.mach.mem (k.proc p) + (pipeSet file').val + k.bootFrames +
        G + ↑k.mach.freelist
      = ∑ p ∈ procSlots, procFrames k.mach.mem (k.proc p) + ((pipeSet file').val + G) +
        k.bootFrames + ↑k.mach.freelist := by abel
    _ = ∑ p ∈ procSlots, procFrames k.mach.mem (k.proc p) + ((pipeSet k.file).val + H) +
        k.bootFrames + ↑k.mach.freelist := by rw [hp]
    _ = ∑ p ∈ procSlots, procFrames k.mach.mem (k.proc p) + (pipeSet k.file).val + k.bootFrames +
        H + ↑k.mach.freelist := by abel

variable {x : File} {w' : Bool}

theorem update_pipe (hx : ∀ q w', x.type = .pipe q w' ↔ (file f).type = .pipe q w') (g q : Nat)
    (w' : Bool) : (update file f x g).type = .pipe q w' ↔ (file g).type = .pipe q w' := by
  rcases eq_or_ne g f with heq | hne
  · rw [heq, update_self]
    exact hx q w'
  · rw [update_of_ne hne]

theorem pipeSet_update (hx : ∀ q w', x.type = .pipe q w' ↔ (file f).type = .pipe q w') :
    pipeSet (update file f x) = pipeSet file := by
  ext q
  rw [mem_pipeSet, mem_pipeSet]
  simp only [update_pipe hx]

/-- A file changes that stays the end of a pipe that it was, if any. -/
theorem Files.setFile (h : Files file pipe refs)
    (hx : ∀ q w', x.type = .pipe q w' ↔ (file f).type = .pipe q w')
    (h0 : x.ref = 0 → x.type = .none) :
    Files (update file f x) pipe (update refs f x.ref) := by
  refine ⟨?_, ?_, ?_, ?_⟩
  · intro g hg
    rcases eq_or_ne g f with heq | hne
    · rw [heq, update_self, update_self]
    · rw [update_of_ne hne, update_of_ne hne]
      exact h.ref g hg
  · intro g hg hr
    rcases eq_or_ne g f with heq | hne
    · rw [heq, update_self] at hr ⊢
      exact h0 hr
    · rw [update_of_ne hne] at hr ⊢
      exact h.closed g hg hr
  · intro g g' q w' hg hg' h1 h2
    rw [update_pipe hx] at h1 h2
    exact h.ends g g' q w' hg hg' h1 h2
  · intro q hq w'
    rw [pipeSet_update hx] at hq
    simp only [update_pipe hx]
    exact h.flag q hq w'

theorem Sys.setFile (h : Sys c k refs H)
    (hx : ∀ q w', x.type = .pipe q w' ↔ (k.file f).type = .pipe q w')
    (h0 : x.ref = 0 → x.type = .none) : Sys c (k.setFile f x) (update refs f x.ref) H := by
  refine h.setFiles (h.files.setFile hx h0) ?_
  rw [pipeSet_update hx]

/-- A reference count changes. -/
theorem Sys.setRef (h : Sys c k refs H) (n : Nat) (hn : n = 0 → (k.file f).type = .none) :
    Sys c (k.setFile f { k.file f with ref := n }) (update refs f n) H :=
  h.setFile (fun _ _ => Iff.rfl) hn

/-- A file without a pipe takes another type without a pipe. -/
theorem Sys.setType (h : Sys c k refs H) (h0 : (k.file f).type.page = none)
    (h1 : x.type.page = none) (hx : x.ref = 0 → x.type = .none) :
    Sys c (k.setFile f x) (update refs f x.ref) H := by
  refine h.setFile (fun q w' => ⟨?_, ?_⟩) hx
  · intro hc
    rw [hc] at h1
    cases h1
  · intro hc
    rw [hc] at h0
    cases h0

/-! ## Closing an end of a pipe -/

/-- The file table after the last reference to `f` has gone. -/
def closeFile (file : Nat → File) (f : Nat) : Nat → File :=
  update file f { ref := 0, type := .none }

/-- The flag of one end is cleared. -/
def Pipe.shut (pi : Pipe) (writable : Bool) : Pipe :=
  if writable then { pi with writeopen := false } else { pi with readopen := false }

@[simp] theorem shut_isOpen_self (pi : Pipe) (w : Bool) : (pi.shut w).isOpen w = false := by
  cases w <;> rfl

theorem shut_isOpen_ne (pi : Pipe) (h : w' ≠ w) : (pi.shut w).isOpen w' = pi.isOpen w' := by
  cases w <;> cases w' <;> first | rfl | exact absurd rfl h

theorem closeFile_type {g q : Nat} :
    (closeFile file f g).type = .pipe q w' ↔ g ≠ f ∧ (file g).type = .pipe q w' := by
  unfold closeFile
  rcases eq_or_ne g f with heq | hne
  · rw [heq, update_self]
    refine ⟨?_, fun hc => absurd rfl hc.1⟩
    intro hc
    cases hc
  · rw [update_of_ne hne]
    exact ⟨fun h => ⟨hne, h⟩, fun h => h.2⟩

/-- An end of another pipe, or the other end, is another file. -/
theorem ne_of_end {e q : Nat} (ht : (file f).type = .pipe pg w) (het : (file e).type = .pipe q w')
    (hne : q ≠ pg ∨ w' ≠ w) : e ≠ f := by
  rintro rfl
  rw [ht] at het
  cases het
  exact hne.elim (absurd rfl) (absurd rfl)

theorem Files.close (h : Files file pipe refs) (hf : f < NFILE)
    (ht : (file f).type = .pipe pg w) :
    Files (closeFile file f) (update pipe pg ((pipe pg).shut w))
      (update refs f 0) := by
  refine ⟨?_, ?_, ?_, ?_⟩
  · intro g hg
    unfold closeFile
    rcases eq_or_ne g f with heq | hne
    · rw [heq, update_self, update_self]
    · rw [update_of_ne hne, update_of_ne hne]
      exact h.ref g hg
  · intro g hg h0
    unfold closeFile at h0 ⊢
    rcases eq_or_ne g f with heq | hne
    · rw [heq, update_self]
    · rw [update_of_ne hne] at h0 ⊢
      exact h.closed g hg h0
  · intro g g' q w' hg hg' h1 h2
    rw [closeFile_type] at h1 h2
    exact h.ends g g' q w' hg hg' h1.2 h2.2
  · intro q hq w'
    obtain ⟨g, w₀, hg, hgt⟩ := mem_pipeSet.mp hq
    rw [closeFile_type] at hgt
    have hq' : q ∈ pipeSet file := mem_pipeSet.mpr ⟨g, w₀, hg, hgt.2⟩
    have hold := h.flag q hq' w'
    simp only [closeFile_type]
    rcases eq_or_ne q pg with heq | hne
    · rw [heq, update_self]
      rcases eq_or_ne w' w with hw | hw
      · -- `f` was the only file for this end
        rw [hw, shut_isOpen_self]
        refine ⟨fun hc => absurd hc Bool.false_ne_true, ?_⟩
        intro hex
        obtain ⟨e, he, hne, het⟩ := hex
        exact absurd (h.ends e f pg w he hf het ht) hne
      · rw [shut_isOpen_ne _ hw]
        rw [heq] at hold
        rw [hold]
        refine ⟨?_, fun hex => ?_⟩
        · intro hex
          obtain ⟨e, he, het⟩ := hex
          exact ⟨e, he, ne_of_end ht het (Or.inr hw), het⟩
        · obtain ⟨e, he, _, het⟩ := hex
          exact ⟨e, he, het⟩
    · rw [update_of_ne hne, hold]
      refine ⟨?_, fun hex => ?_⟩
      · intro hex
        obtain ⟨e, he, het⟩ := hex
        exact ⟨e, he, ne_of_end ht het (Or.inl hne), het⟩
      · obtain ⟨e, he, _, het⟩ := hex
        exact ⟨e, he, het⟩

/-- The page stays with the pipe as long as the other end is open. -/
theorem Files.pipeSet_closed (h : Files file pipe refs) (hf : f < NFILE)
    (ht : (file f).type = .pipe pg w) :
    (pipeSet (closeFile file f)).val +
      (if (pipe pg).isOpen (!w) then 0 else {pg}) = (pipeSet file).val := by
  have hpg : pg ∈ pipeSet file := mem_pipeSet.mpr ⟨f, w, hf, ht⟩
  have hother : ∀ q, q ≠ pg → (q ∈ pipeSet (closeFile file f) ↔ q ∈ pipeSet file) := by
    intro q hq
    rw [mem_pipeSet, mem_pipeSet]
    simp only [closeFile_type]
    refine ⟨?_, ?_⟩
    · intro hex
      obtain ⟨g, w', hg, _, hgt⟩ := hex
      exact ⟨g, w', hg, hgt⟩
    · intro hex
      obtain ⟨g, w', hg, hgt⟩ := hex
      exact ⟨g, w', hg, ne_of_end ht hgt (Or.inl hq), hgt⟩
  have hself : pg ∈ pipeSet (closeFile file f) ↔ (pipe pg).isOpen (!w) = true := by
    rw [h.flag pg hpg, mem_pipeSet]
    simp only [closeFile_type]
    refine ⟨?_, ?_⟩
    · intro hex
      obtain ⟨g, w', hg, hgf, hgt⟩ := hex
      refine ⟨g, hg, ?_⟩
      rcases eq_or_ne w' w with hw | hw
      · rw [hw] at hgt
        exact absurd (h.ends g f pg w hg hf hgt ht) hgf
      · rw [hgt, Bool.eq_not_of_ne hw]
    · intro hex
      obtain ⟨g, hg, hgt⟩ := hex
      exact ⟨g, !w, hg, ne_of_end ht hgt (Or.inr (by cases w <;> decide)), hgt⟩
  rcases hb : (pipe pg).isOpen (!w) with _ | _
  · rw [hb] at hself
    have hnot : pg ∉ pipeSet (closeFile file f) := fun hc => by cases hself.mp hc
    have heq : pipeSet file = insert pg (pipeSet (closeFile file f)) := by
      ext q
      rw [mem_insert]
      rcases eq_or_ne q pg with hq | hq
      · rw [hq]
        exact ⟨fun _ => Or.inl rfl, fun _ => hpg⟩
      · rw [hother q hq]
        exact ⟨Or.inr, fun hc => hc.resolve_left hq⟩
    rw [heq, insert_val_of_notMem hnot, if_neg Bool.false_ne_true, add_comm,
      singleton_add]
  · rw [hb] at hself
    have heq : pipeSet (closeFile file f) = pipeSet file := by
      ext q
      rcases eq_or_ne q pg with hq | hq
      · rw [hq]
        exact ⟨fun _ => hpg, fun _ => hself.mpr rfl⟩
      · exact hother q hq
    rw [heq, if_pos rfl, add_zero]

/-! ## `filealloc`, `filedup` and `fileclose` -/

/-- The process table has not changed. -/
structure SameProcs (k k' : Kernel) : Prop where
  proc : k'.proc = k.proc
  initproc : k'.initproc = k.initproc

theorem SameProcs.refl (k : Kernel) : SameProcs k k := ⟨rfl, rfl⟩

theorem SameProcs.trans {k' k'' : Kernel} (h : SameProcs k k') (h' : SameProcs k' k'') :
    SameProcs k k'' := ⟨h'.proc.trans h.proc, h'.initproc.trans h.initproc⟩

theorem wp_filealloc {Q : Option Nat → Kernel → Prop} (h : Sys c k refs H) (hn : Q none k)
    (hs : ∀ f k', f < NFILE → refs f = 0 → SameProcs k k' → k'.mach = k.mach →
      (k'.file f).type = .none → (∀ g, g ≠ f → k'.file g = k.file g) →
      Sys c k' (update refs f 1) H → Q (some f) k') :
    wp Crit.total Q filealloc k := by
  unfold filealloc
  simp only [wp_bind, wp_look]
  refine ⟨trivial, ?_⟩
  cases hfind : (List.range NFILE).find? fun f => decide ((k.file f).ref = 0) with
  | none => exact hn
  | some f =>
    have hf : f < NFILE := List.mem_range.mp (List.mem_of_find?_eq_some hfind)
    have h0 : (k.file f).ref = 0 := by
      simpa using List.find?_some hfind
    refine ⟨trivial, hs f _ hf ?_ ⟨rfl, rfl⟩ rfl ?_ ?_ (h.setRef 1 ?_)⟩
    · rw [← h.files.ref f hf]
      exact h0
    · show (update k.file f _ f).type = _
      rw [update_self]
      exact h.files.closed f hf h0
    · intro g hg
      exact update_of_ne hg _ _
    · intro hc
      cases hc

theorem wp_filedup {Q : Unit → Kernel → Prop} (h : Sys c k refs H) (hf : f < NFILE)
    (hr : 0 < refs f)
    (hQ : ∀ k', SameProcs k k' → k'.mach = k.mach →
      Sys c k' (update refs f (refs f + 1)) H → Q () k') :
    wp Crit.total Q (filedup f) k := by
  have href := h.files.ref f hf
  unfold filedup
  simp only [wp_bind, wp_look]
  refine ⟨trivial, ?_⟩
  rw [if_neg (by omega)]
  refine ⟨trivial, hQ _ ⟨rfl, rfl⟩ rfl ?_⟩
  rw [← href]
  refine h.setRef _ ?_
  intro hc
  cases hc

/-- `pipeclose` after the file has gone. The page is still in hand if this was the last end. -/
theorem wp_pipeclose {Q : Unit → Kernel → Prop} {pi : Pipe} (hpi : k.pipe pg = pi)
    (h : Sys c (k.setPipe pg (pi.shut w)) refs ((if pi.isOpen (!w) then 0 else {pg}) + H))
    (hQ : ∀ k', SameProcs k k' → Sys c k' refs H → Q () k') :
    wp Crit.total Q (pipeclose pg w) k := by
  have hstate : (k.setPipe pg (if w then { k.pipe pg with writeopen := false }
      else { k.pipe pg with readopen := false })) = k.setPipe pg (pi.shut w) := by
    rw [hpi]
    rfl
  have hflags : ((pi.shut w).readopen = false ∧ (pi.shut w).writeopen = false) ↔
      pi.isOpen (!w) = false := by
    cases w
    · show (false = false ∧ pi.writeopen = false) ↔ pi.writeopen = false
      simp
    · show (pi.readopen = false ∧ false = false) ↔ pi.readopen = false
      simp
  unfold pipeclose
  simp only [wp_bind, wp_update, wp_look]
  refine ⟨trivial, trivial, ?_⟩
  rw [hstate]
  have hread : (k.setPipe pg (pi.shut w)).pipe pg = pi.shut w := update_self _ _ _
  rw [hread]
  rcases hb : pi.isOpen (!w) with _ | _
  · rw [hb] at h
    rw [if_pos (hflags.mpr hb), wp_onMach]
    refine wp_kfree_moves h.hands_held ?_
    intro t m
    exact hQ _ ⟨rfl, rfl⟩ (h.mach m)
  · rw [hb, if_pos rfl, zero_add] at h
    have hne : ¬ ((pi.shut w).readopen = false ∧ (pi.shut w).writeopen = false) := by
      rw [hflags, hb]
      exact Bool.noConfusion
    rw [if_neg hne]
    exact hQ _ ⟨rfl, rfl⟩ h

theorem wp_fileclose {Q : Unit → Kernel → Prop} (h : Sys c k refs H) (hf : f < NFILE)
    (hr : 0 < refs f)
    (hQ : ∀ k', SameProcs k k' → Sys c k' (update refs f (refs f - 1)) H → Q () k') :
    wp Crit.total Q (fileclose f) k := by
  have href := h.files.ref f hf
  unfold fileclose
  simp only [wp_bind, wp_look]
  refine ⟨trivial, ?_⟩
  rw [if_neg (by omega)]
  rcases Nat.lt_or_ge 1 (refs f) with hmany | hone
  · rw [if_pos (by omega)]
    refine ⟨trivial, hQ _ ⟨rfl, rfl⟩ ?_⟩
    rw [← href]
    refine h.setRef _ ?_
    intro hc
    omega
  · rw [if_neg (by omega)]
    refine ⟨trivial, ?_⟩
    rw [show refs f - 1 = 0 by omega] at hQ
    -- a file without a pipe only leaves the table
    have hplain : (k.file f).type.page = none →
        Q () (k.setFile f { ref := 0, type := .none }) := by
      intro hnone
      refine hQ _ ⟨rfl, rfl⟩ ?_
      exact h.setType hnone rfl fun _ => rfl
    cases ht : (k.file f).type with
    | none | inode => exact hplain (by rw [ht]; rfl)
    | pipe pg w =>
      have hsys : Sys c ((k.setFile f { ref := 0, type := .none }).setPipe pg ((k.pipe pg).shut w))
          (update refs f 0) ((if (k.pipe pg).isOpen (!w) then 0 else {pg}) + H) := by
        refine h.setFiles (h.files.close hf ht) ?_
        rw [← add_assoc, ← h.files.pipeSet_closed hf ht]
        rfl
      exact wp_pipeclose rfl hsys fun k' hsame hk' => hQ k' ⟨hsame.proc, hsame.initproc⟩ hk'

/-- Two files with one reference each are closed again. -/
theorem wp_closeBoth {α : Type} (a : α) {f0 f1 : Nat} {Q : α → Kernel → Prop} (h0 : f0 < NFILE) (h1 : f1 < NFILE)
    (hr0 : refs f0 = 0) (hr1 : refs f1 = 0) (hne : f0 ≠ f1)
    (h : Sys c k (update (update refs f0 1) f1 1) H)
    (hQ : ∀ k', SameProcs k k' → Sys c k' refs H → Q a k') :
    wp Crit.total Q (do
      fileclose f0
      fileclose f1
      pure a) k := by
  simp only [wp_bind]
  refine wp_fileclose h h0 (by rw [update_of_ne hne, update_self]; decide) ?_
  intro k1 hsame1 hk1
  rw [update_of_ne hne, update_self, update_comm hne,
    update_idem, Nat.sub_self, update_comm (Ne.symm hne), ← hr0,
    update_eq_self] at hk1
  refine wp_fileclose hk1 h1 (by rw [update_self]; decide) ?_
  intro k2 hsame2 hk2
  rw [update_self, update_idem, Nat.sub_self, ← hr1,
    update_eq_self] at hk2
  exact hQ k2 (hsame1.trans hsame2) hk2

/-! ## `pipealloc` -/

/-- A new pipe: two files without type become the ends of a pipe on a page in hand. -/
theorem Files.openPipe (h : Files file pipe refs) {f0 f1 : Nat} (h0 : f0 < NFILE) (h1 : f1 < NFILE)
    (hne : f0 ≠ f1) (hr0 : refs f0 ≠ 0) (hr1 : refs f1 ≠ 0) (ht0 : (file f0).type = .none)
    (ht1 : (file f1).type = .none) (hpg : pg ∉ pipeSet file) :
    Files (update (update file f0 { file f0 with type := .pipe pg false }) f1
      { file f1 with type := .pipe pg true }) (update pipe pg ⟨true, true⟩) refs ∧
    pipeSet (update (update file f0 { file f0 with type := .pipe pg false }) f1
      { file f1 with type := .pipe pg true }) = insert pg (pipeSet file) := by
  generalize hnew : update (update file f0
    { file f0 with type := .pipe pg false }) f1 { file f1 with type := .pipe pg true } = file'
  have href : ∀ g, (file' g).ref = (file g).ref := by
    intro g
    rw [← hnew]
    rcases eq_or_ne g f1 with hg | hg
    · rw [hg, update_self]
    · rw [update_of_ne hg]
      rcases eq_or_ne g f0 with hg' | hg'
      · rw [hg', update_self]
      · rw [update_of_ne hg']
  have htype : ∀ g q w', (file' g).type = .pipe q w' ↔
      (file g).type = .pipe q w' ∨ (q = pg ∧ g = if w' then f1 else f0) := by
    intro g q w'
    rw [← hnew]
    rcases eq_or_ne g f1 with hg | hg
    · rw [hg, ht1]
      cases w'
      · simp [Ne.symm hne]
      · simp [eq_comm]
    · rw [update_of_ne hg]
      rcases eq_or_ne g f0 with hg' | hg'
      · rw [hg', ht0]
        cases w'
        · simp [eq_comm]
        · simp [hne]
      · rw [update_of_ne hg']
        cases w'
        · simp [hg']
        · simp [hg]
  have hend : ∀ w' : Bool, (if w' then f1 else f0) < NFILE := by
    intro w'
    cases w'
    · exact h0
    · exact h1
  have hnone : ∀ g w', g < NFILE → (file g).type ≠ .pipe pg w' := by
    intro g w' hg hc
    exact hpg (mem_pipeSet.mpr ⟨g, w', hg, hc⟩)
  have hset : pipeSet file' = insert pg (pipeSet file) := by
    ext q
    rw [mem_insert, mem_pipeSet, mem_pipeSet]
    simp only [htype]
    refine ⟨?_, ?_⟩
    · intro hex
      obtain ⟨g, w', hg, hgt⟩ := hex
      rcases hgt with hgt | hgt
      · exact Or.inr ⟨g, w', hg, hgt⟩
      · exact Or.inl hgt.1
    · intro hex
      rcases hex with heq | hex
      · exact ⟨f0, false, h0, Or.inr ⟨heq, rfl⟩⟩
      · obtain ⟨g, w', hg, hgt⟩ := hex
        exact ⟨g, w', hg, Or.inl hgt⟩
  refine ⟨⟨?_, ?_, ?_, ?_⟩, hset⟩
  · intro g hg
    rw [href]
    exact h.ref g hg
  · intro g hg hz
    rw [href, h.ref g hg] at hz
    have hg0 : g ≠ f0 := fun heq => hr0 (by rw [← heq]; exact hz)
    have hg1 : g ≠ f1 := fun heq => hr1 (by rw [← heq]; exact hz)
    rw [← hnew, update_of_ne hg1, update_of_ne hg0]
    exact h.closed g hg (by rw [h.ref g hg]; exact hz)
  · intro g g' q w' hg hg' ha hb
    rw [htype] at ha hb
    rcases ha with ha | ha
    · rcases hb with hb | hb
      · exact h.ends g g' q w' hg hg' ha hb
      · rw [hb.1] at ha
        exact absurd ha (hnone g w' hg)
    · rcases hb with hb | hb
      · rw [ha.1] at hb
        exact absurd hb (hnone g' w' hg')
      · rw [ha.2, hb.2]
  · intro q hq w'
    rw [hset, mem_insert] at hq
    simp only [htype]
    rcases eq_or_ne q pg with heq | hqne
    · rw [heq, update_self]
      refine ⟨fun _ => ⟨_, hend w', Or.inr ⟨rfl, rfl⟩⟩, fun _ => ?_⟩
      cases w' <;> rfl
    · rw [update_of_ne hqne, h.flag q (hq.resolve_left hqne) w']
      refine ⟨?_, ?_⟩
      · intro hex
        obtain ⟨g, hg, hgt⟩ := hex
        exact ⟨g, hg, Or.inl hgt⟩
      · intro hex
        obtain ⟨g, hg, hgt⟩ := hex
        exact ⟨g, hg, hgt.resolve_right fun hc => hqne hc.1⟩

/-- `pipealloc`: two new files with one reference each, or nothing. -/
theorem wp_pipealloc {Q : Option (Nat × Nat) → Kernel → Prop} (h : Sys c k refs H)
    (hn : ∀ k', SameProcs k k' → Sys c k' refs H → Q none k')
    (hs : ∀ f0 f1 k', f0 < NFILE → f1 < NFILE → refs f0 = 0 → refs f1 = 0 → f0 ≠ f1 →
      SameProcs k k' → Sys c k' (update (update refs f0 1) f1 1) H →
      Q (some (f0, f1)) k') :
    wp Crit.total Q pipealloc k := by
  unfold pipealloc
  rw [wp_bind]
  refine wp_filealloc h (hn k (SameProcs.refl k) h) ?_
  intro f0 k1 h0 hr0 hsame1 _ ht0 _ hk1
  simp only [wp_bind]
  refine wp_filealloc hk1 ?_ ?_
  · -- no second file
    rw [wp_bind]
    refine wp_fileclose hk1 h0 (by rw [update_self]; decide) ?_
    intro k2 hsame2 hk2
    refine hn k2 (hsame1.trans hsame2) ?_
    rw [update_self, update_idem, Nat.sub_self, ← hr0,
      update_eq_self] at hk2
    exact hk2
  · intro f1 k2 h1 hr1 hsame2 _ ht1 hother hk2
    have hne : f0 ≠ f1 := by
      intro heq
      rw [← heq, update_self] at hr1
      cases hr1
    rw [update_of_ne (Ne.symm hne)] at hr1
    have hsame := hsame1.trans hsame2
    rw [wp_bind, wp_onMach]
    refine wp_kalloc_moves (F := H) ?_ ?_
    · -- no page: both files go back
      intro t m
      refine wp_closeBoth none h0 h1 hr0 hr1 hne (hk2.mach m) ?_
      intro k3 hsame3 hk3
      exact hn k3 (hsame.trans ⟨hsame3.proc, hsame3.initproc⟩) hk3
    · intro pg t m
      have hk3 := hk2.mach m
      have hpg : pg ∉ pipeSet k2.file := by
        intro hc
        have hdis := (nodup_add.mp (nodup_add.mp hk3.nodup).1).2.2
        have hown : pg ∈ ({ k2 with mach := t } : Kernel).owned :=
          mem_add.mpr (Or.inl (mem_add.mpr (Or.inr hc)))
        exact disjoint_left.mp hdis hown (mem_cons_self pg H)
      have hr0' : update (update refs f0 1) f1 1 f0 ≠ 0 := by
        rw [update_of_ne hne, update_self]
        decide
      have hr1' : update (update refs f0 1) f1 1 f1 ≠ 0 := by
        rw [update_self]
        decide
      have ht0' : (k2.file f0).type = .none := by
        rw [hother f0 hne]
        exact ht0
      obtain ⟨hfiles, hset⟩ := hk2.files.openPipe h0 h1 hne hr0' hr1' ht0' ht1 hpg
      refine ⟨trivial, trivial, trivial, hs f0 f1 _ h0 h1 hr0 hr1 hne ?_ ?_⟩
      · exact hsame.trans ⟨rfl, rfl⟩
      · have hf1 : update k2.file f0 { k2.file f0 with type := .pipe pg false } f1 =
            k2.file f1 := update_of_ne (Ne.symm hne) _ _
        have hk4 := hk3.setFiles hfiles (G := H) (by
          rw [hset, insert_val_of_notMem hpg, cons_add, add_cons])
        rw [← hf1] at hk4
        exact hk4

end files

end Xv6
