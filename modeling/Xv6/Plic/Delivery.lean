/-
  Delivery of the interrupts of the UART.

  `Delivered` says what the driver owes in a state: the source is enabled for the supervisor contexts
  of the harts that have asked for it and no register of another context has been written; an
  interrupt that is pending is announced to one of these harts; each has been claimed once; and one
  that is claimed is being served, so that `plic_complete` lets the next through.

  This holds in every run if the addresses of the driver are those of the supervisor contexts
  (`delivered_of_run`).  Those of `memlayout.h` lie one context further, at the machine mode of the
  next hart (`memlayout_at`), and `plic_delivers_iff` says in which runs this goes unnoticed.
-/
import Xv6.Plic.Model
import Mathlib.Logic.Function.Basic
import Mathlib.Tactic.Common

namespace Xv6.Plic

open Function List

/-! ## What the driver owes -/

structure Delivered (harts : List (Fin NCPU)) (s : Sys) : Prop where
  enabled : ∀ h, s.ctl.enabled (supervisor h) UART0_IRQ = true ∧ s.ctl.threshold (supervisor h) = 0 ↔
    h ∈ harts
  written : ∀ r ∈ s.ctl.written, ∀ c, r.context = some c → ∃ h ∈ harts, c = supervisor h
  /-- What has been raised has been claimed once, or not yet. -/
  once : s.claims.length + (s.ctl.source UART0_IRQ).waiting +
    (if (s.ctl.source UART0_IRQ).gateway = .pending then 1 else 0) = s.raised
  claims : ∀ x ∈ s.claims, x.1 ∈ harts ∧ x.2 = BitVec.ofNat 32 UART0_IRQ
  announced : (s.ctl.source UART0_IRQ).gateway = .pending →
    ∃ h ∈ harts, s.ctl.notified (supervisor h) = true
  served : (s.ctl.source UART0_IRQ).gateway = .claimed →
    ∃ h ∈ harts, s.hart h = .serving (BitVec.ofNat 32 UART0_IRQ)
  /-- Nothing waits at an open gateway. -/
  next : 0 < (s.ctl.source UART0_IRQ).waiting → (s.ctl.source UART0_IRQ).gateway ≠ .quiet

/-! ## The controller -/

namespace Ctl

variable {p : Ctl} {c : Nat}

theorem source_setSource (p : Ctl) (irq i : Nat) (x : Source) :
    (p.setSource irq x).source i = if i = irq then x else p.source i :=
  update_apply p.source irq x i

theorem claimable_iff {irq : Nat} : p.claimable c irq = true ↔
    0 < irq ∧ (p.source irq).gateway = .pending ∧ p.enabled c irq = true ∧ p.priority irq ≠ 0 := by
  unfold claimable
  exact decide_eq_true_iff

theorem notified_iff : p.notified c = true ↔
    ∃ irq < NSOURCE, p.claimable c irq = true ∧ p.threshold c < p.priority irq := by
  unfold notified
  rw [any_eq_true]
  constructor
  · rintro ⟨irq, hmem, hirq⟩
    rw [Bool.and_eq_true, decide_eq_true_iff] at hirq
    exact ⟨irq, mem_range.mp hmem, hirq⟩
  · rintro ⟨irq, hlt, hirq⟩
    refine ⟨irq, mem_range.mpr hlt, ?_⟩
    rw [Bool.and_eq_true, decide_eq_true_iff]
    exact hirq

/-- The search returns what it started with or something that can be claimed. -/
theorem foldl_best (l : List Nat) (b : Nat) :
    let r := l.foldl (fun b irq =>
      if p.claimable c irq = true ∧ (b = 0 ∨ p.priority b < p.priority irq) then irq else b) b
    (r = b ∨ p.claimable c r = true) ∧
    (b ≠ 0 ∨ (∃ irq ∈ l, p.claimable c irq = true) → r ≠ 0) := by
  induction l generalizing b with
  | nil =>
    refine ⟨Or.inl rfl, ?_⟩
    rintro (hb | ⟨irq, hmem, _⟩)
    · exact hb
    · cases hmem
  | cons x l ih =>
    dsimp only [foldl_cons]
    split
    · rename_i hx
      obtain ⟨hcase, hne⟩ := ih x
      have hpos := (claimable_iff.mp hx.1).1
      refine ⟨?_, fun _ => hne (Or.inl (Nat.ne_of_gt hpos))⟩
      rcases hcase with hr | hr
      · rw [hr]
        exact Or.inr hx.1
      · exact Or.inr hr
    · rename_i hx
      obtain ⟨hcase, hne⟩ := ih b
      refine ⟨hcase, ?_⟩
      intro hsome
      by_cases hb : b = 0
      · refine hne (Or.inr ?_)
        rcases hsome with hb' | ⟨irq, hmem, hirq⟩
        · exact absurd hb hb'
        · rcases mem_cons.mp hmem with rfl | hmem
          · exact absurd ⟨hirq, Or.inl hb⟩ hx
          · exact ⟨irq, hmem, hirq⟩
      · exact hne (Or.inl hb)

theorem best_cases (p : Ctl) (c : Nat) : p.best c = 0 ∨ p.claimable c (p.best c) = true :=
  (foldl_best (range NSOURCE) 0).1

theorem best_ne_zero {irq : Nat} (hlt : irq < NSOURCE) (h : p.claimable c irq = true) :
    p.best c ≠ 0 :=
  (foldl_best (range NSOURCE) 0).2 (Or.inr ⟨irq, mem_range.mpr hlt, h⟩)

end Ctl

/-! ## Addresses -/

/-- The addresses of hart `h` are those of context `ctx h`. -/
structure Layout.At (L : Layout) (ctx : Fin NCPU → Nat) : Prop where
  senable : ∀ h : Fin NCPU, decode (L.PLIC_SENABLE h + 4 * (UART0_IRQ / 32)) =
    some (.enable (ctx h) (UART0_IRQ / 32))
  spriority : ∀ h : Fin NCPU, decode (L.PLIC_SPRIORITY h) = some (.threshold (ctx h))
  sclaim : ∀ h : Fin NCPU, decode (L.PLIC_SCLAIM h) = some (.claim (ctx h))

/-- The addresses of `memlayout.h` belong to the context after that of supervisor mode. -/
theorem memlayout_at : memlayout.At fun h => supervisor h + 1 :=
  ⟨by decide, by decide, by decide⟩

/-- The addresses for the supervisor contexts. -/
def supervisorLayout : Layout where
  PLIC_SENABLE := fun hart => PLIC + 0x2000 + (hart * 2 + 1) * 0x80
  PLIC_SPRIORITY := fun hart => PLIC + 0x200000 + (hart * 2 + 1) * 0x1000
  PLIC_SCLAIM := fun hart => PLIC + 0x200004 + (hart * 2 + 1) * 0x1000

theorem supervisorLayout_at : supervisorLayout.At supervisor := ⟨by decide, by decide, by decide⟩

/-! ## The registers after `plicinithart` -/

section

variable {L : Layout} {ctx : Fin NCPU → Nat} {harts : List (Fin NCPU)} {p : Ctl} {h : Fin NCPU}

/-- What the harts have set up, and that only the UART raises interrupts. -/
structure Setup (ctx : Fin NCPU → Nat) (harts : List (Fin NCPU)) (p : Ctl) : Prop where
  enabled : ∀ c, p.enabled c UART0_IRQ = true ↔ ∃ h ∈ harts, ctx h = c
  threshold : ∀ h ∈ harts, p.threshold (ctx h) = 0
  priority : p.priority UART0_IRQ = 1
  written : ∀ r ∈ p.written, ∀ c, r.context = some c → ∃ h ∈ harts, c = ctx h
  quiet : ∀ irq, irq ≠ UART0_IRQ → (p.source irq).gateway = .quiet

theorem Layout.At.plicinithart (hL : L.At ctx) (h : Fin NCPU) (p : Ctl) : plicinithart L h p =
    { p with
      written := .threshold (ctx h) :: .enable (ctx h) (UART0_IRQ / 32) :: p.written
      enable := update p.enable (ctx h)
        (update (p.enable (ctx h)) (UART0_IRQ / 32) (1 <<< (UART0_IRQ % 32)))
      threshold := update p.threshold (ctx h) 0 } := by
  simp only [Plic.plicinithart, Ctl.store, hL.senable h, hL.spriority h]

theorem Setup.inithart (hL : L.At ctx) (hp : Setup ctx harts p) (h : Fin NCPU) :
    Setup ctx (harts ++ [h]) (plicinithart L h p) := by
  rw [hL.plicinithart]
  refine ⟨?_, ?_, hp.priority, ?_, hp.quiet⟩
  · intro c
    simp only [Ctl.enabled, mem_append, mem_singleton]
    by_cases hc : c = ctx h
    · rw [hc, update_self, update_self]
      exact ⟨fun _ => ⟨h, Or.inr rfl, rfl⟩, fun _ => by decide⟩
    · rw [update_of_ne hc]
      refine (hp.enabled c).trans ?_
      constructor
      · rintro ⟨g, hg, hgc⟩
        exact ⟨g, Or.inl hg, hgc⟩
      · rintro ⟨g, hg | rfl, hgc⟩
        · exact ⟨g, hg, hgc⟩
        · exact absurd hgc.symm hc
  · intro g hg
    dsimp only
    rw [update_apply]
    split
    · rfl
    · rename_i hne
      rcases mem_append.mp hg with hg | hg
      · exact hp.threshold g hg
      · rw [mem_singleton.mp hg] at hne
        exact absurd rfl hne
  · intro r hr c hc
    rcases mem_cons.mp hr with rfl | hr
    · cases hc
      exact ⟨h, mem_append_right _ (mem_singleton_self h), rfl⟩
    rcases mem_cons.mp hr with rfl | hr
    · cases hc
      exact ⟨h, mem_append_right _ (mem_singleton_self h), rfl⟩
    · obtain ⟨g, hg, hgc⟩ := hp.written r hr c hc
      exact ⟨g, mem_append_left _ hg, hgc⟩

theorem Setup.foldl (hL : L.At ctx) (hp : Setup ctx harts p) (l : List (Fin NCPU)) :
    Setup ctx (harts ++ l) (l.foldl (fun p (h : Fin NCPU) => plicinithart L h p) p) := by
  induction l generalizing harts p with
  | nil =>
    rw [append_nil]
    exact hp
  | cons h l ih =>
    have hall := ih (hp.inithart hL h)
    rw [append_assoc] at hall
    exact hall

theorem Setup.init (priority threshold : Nat → BitVec 32) :
    Setup ctx [] (plicinit (.reset priority threshold)) := by
  have hinit : plicinit (.reset priority threshold) =
      { Ctl.reset priority threshold with
        written := [.priority UART0_IRQ]
        priority := update priority UART0_IRQ 1 } := rfl
  rw [hinit]
  refine ⟨?_, nofun, ?_, ?_, fun _ _ => rfl⟩
  · intro c
    constructor
    · intro henabled
      unfold Ctl.enabled Ctl.reset at henabled
      rw [BitVec.ofNat_eq_ofNat, BitVec.getLsbD_zero] at henabled
      cases henabled
    · rintro ⟨h, hh, _⟩
      cases hh
  · exact update_self UART0_IRQ (1 : BitVec 32) priority
  · intro r hr c hc
    rw [mem_singleton.mp hr] at hc
    cases hc

theorem Setup.start (hL : L.At ctx) (priority threshold : Nat → BitVec 32)
    (harts : List (Fin NCPU)) : Setup ctx harts (start L priority threshold harts).ctl :=
  (Setup.init priority threshold).foldl hL harts

theorem Setup.enabled_at (hp : Setup ctx harts p) (hh : h ∈ harts) :
    p.enabled (ctx h) UART0_IRQ = true := (hp.enabled _).mpr ⟨h, hh, rfl⟩

/-- Only the UART's interrupt can be claimed. -/
theorem Setup.claimable (hp : Setup ctx harts p) {c irq : Nat} (hc : p.claimable c irq = true) :
    irq = UART0_IRQ ∧ (p.source UART0_IRQ).gateway = .pending ∧ ∃ h ∈ harts, ctx h = c := by
  obtain ⟨_, hpending, henabled, _⟩ := Ctl.claimable_iff.mp hc
  by_cases hirq : irq = UART0_IRQ
  · rw [hirq] at hpending henabled
    exact ⟨hirq, hpending, (hp.enabled c).mp henabled⟩
  · rw [hp.quiet irq hirq] at hpending
    cases hpending

theorem Setup.claimable_of (hp : Setup ctx harts p) (hh : h ∈ harts)
    (hpending : (p.source UART0_IRQ).gateway = .pending) :
    p.claimable (ctx h) UART0_IRQ = true := by
  refine Ctl.claimable_iff.mpr ⟨by decide, hpending, hp.enabled_at hh, ?_⟩
  rw [hp.priority]
  decide

theorem Setup.best (hp : Setup ctx harts p) (hh : h ∈ harts) :
    p.best (ctx h) = if (p.source UART0_IRQ).gateway = .pending then UART0_IRQ else 0 := by
  split
  · rename_i hpending
    have hne := Ctl.best_ne_zero (by decide) (hp.claimable_of hh hpending)
    rcases p.best_cases (ctx h) with hzero | hclaim
    · exact absurd hzero hne
    · exact (hp.claimable hclaim).1
  · rename_i hpending
    rcases p.best_cases (ctx h) with hzero | hclaim
    · exact hzero
    · exact absurd (hp.claimable hclaim).2.1 hpending

theorem Setup.notified (hp : Setup ctx harts p) (hh : h ∈ harts)
    (hpending : (p.source UART0_IRQ).gateway = .pending) : p.notified (ctx h) = true := by
  refine Ctl.notified_iff.mpr ⟨UART0_IRQ, by decide, hp.claimable_of hh hpending, ?_⟩
  rw [hp.priority, hp.threshold h hh]
  decide

theorem Setup.of_notified (hp : Setup ctx harts p) {c : Nat} (hc : p.notified c = true) :
    (p.source UART0_IRQ).gateway = .pending ∧ ∃ h ∈ harts, ctx h = c := by
  obtain ⟨irq, _, hclaim, _⟩ := Ctl.notified_iff.mp hc
  exact (hp.claimable hclaim).2

theorem Setup.setSource (hp : Setup ctx harts p) (x : Source) :
    Setup ctx harts (p.setSource UART0_IRQ x) := by
  refine ⟨hp.enabled, hp.threshold, hp.priority, hp.written, ?_⟩
  intro irq hirq
  rw [Ctl.source_setSource, if_neg hirq]
  exact hp.quiet irq hirq

end

/-! ## Runs at the supervisor contexts -/

section run

variable {L : Layout} {harts : List (Fin NCPU)} {s t : Sys}

theorem supervisor_inj {g h : Fin NCPU} (heq : supervisor g = supervisor h) : g = h := by
  unfold supervisor at heq
  exact Fin.ext (by omega)

/-- The way of the interrupts through the gateway `x` of the UART and the harts. -/
structure Flow (harts : List (Fin NCPU)) (x : Source) (hart : Fin NCPU → Hart) (raised : Nat)
    (claims : List (Fin NCPU × BitVec 32)) : Prop where
  once : claims.length + x.waiting + (if x.gateway = .pending then 1 else 0) = raised
  claims : ∀ y ∈ claims, y.1 ∈ harts ∧ y.2 = BitVec.ofNat 32 UART0_IRQ
  inside : ∀ h, hart h ≠ .out → h ∈ harts
  serving : ∀ h irq, hart h = .serving irq →
    irq = BitVec.ofNat 32 UART0_IRQ ∧ x.gateway = .claimed
  alone : ∀ g h i j, hart g = .serving i → hart h = .serving j → g = h
  served : x.gateway = .claimed → ∃ h ∈ harts, hart h = .serving (BitVec.ofNat 32 UART0_IRQ)
  next : 0 < x.waiting → x.gateway ≠ .quiet

namespace Flow

variable {x : Source} {hart : Fin NCPU → Hart} {raised : Nat} {claims : List (Fin NCPU × BitVec 32)}

theorem init : Flow harts ⟨.quiet, 0⟩ (fun _ => .out) 0 [] where
  once := rfl
  claims := nofun
  inside := fun _ hh => absurd rfl hh
  serving := nofun
  alone := nofun
  served := nofun
  next := nofun

theorem raise_quiet (hs : Flow harts x hart raised claims) (hx : x.gateway = .quiet) :
    Flow harts { x with gateway := .pending } hart (raised + 1) claims := by
  refine ⟨?_, hs.claims, hs.inside, ?_, hs.alone, nofun, fun _ => nofun⟩
  · have honce := hs.once
    rw [hx, if_neg nofun] at honce
    rw [if_pos rfl]
    dsimp only
    omega
  · intro h irq hh
    have hclaimed := (hs.serving h irq hh).2
    rw [hx] at hclaimed
    cases hclaimed

theorem raise_busy (hs : Flow harts x hart raised claims) (hx : x.gateway ≠ .quiet) :
    Flow harts { x with waiting := x.waiting + 1 } hart (raised + 1) claims := by
  refine ⟨?_, hs.claims, hs.inside, hs.serving, hs.alone, hs.served, fun _ => hx⟩
  have honce := hs.once
  dsimp only
  omega

theorem hart_of_update {h g : Fin NCPU} {y z : Hart} (hg : update hart h y g = z) :
    g = h ∧ y = z ∨ g ≠ h ∧ hart g = z := by
  rw [update_apply] at hg
  split at hg
  · rename_i heq
    exact Or.inl ⟨heq, hg⟩
  · rename_i hne
    exact Or.inr ⟨hne, hg⟩

/-- A hart that serves nothing moves to where it serves nothing. -/
theorem move (hs : Flow harts x hart raised claims) {h : Fin NCPU} (hh : h ∈ harts) {y : Hart}
    (hy : ∀ irq, y ≠ .serving irq) (hold : ∀ irq, hart h ≠ .serving irq) :
    Flow harts x (update hart h y) raised claims := by
  refine ⟨hs.once, hs.claims, ?_, ?_, ?_, ?_, hs.next⟩
  · intro g hg
    by_cases heq : g = h
    · rw [heq]
      exact hh
    · rw [update_of_ne heq] at hg
      exact hs.inside g hg
  · intro g irq hg
    rcases hart_of_update hg with ⟨_, heq⟩ | ⟨_, hg⟩
    · exact absurd heq (hy irq)
    · exact hs.serving g irq hg
  · intro g g' i j hg hg'
    rcases hart_of_update hg with ⟨_, heq⟩ | ⟨_, hg⟩
    · exact absurd heq (hy i)
    rcases hart_of_update hg' with ⟨_, heq⟩ | ⟨_, hg'⟩
    · exact absurd heq (hy j)
    · exact hs.alone g g' i j hg hg'
  · intro hx
    obtain ⟨g, hg, hserving⟩ := hs.served hx
    refine ⟨g, hg, ?_⟩
    rw [update_of_ne]
    · exact hserving
    · rintro rfl
      exact hold _ hserving

theorem claim (hs : Flow harts x hart raised claims) {h : Fin NCPU} (hh : h ∈ harts)
    (hx : x.gateway = .pending) :
    Flow harts { x with gateway := .claimed }
      (update hart h (.serving (BitVec.ofNat 32 UART0_IRQ))) raised
      ((h, BitVec.ofNat 32 UART0_IRQ) :: claims) := by
  -- nobody serves while an interrupt is pending
  have hnone : ∀ g irq, hart g ≠ .serving irq := by
    intro g irq hg
    have hclaimed := (hs.serving g irq hg).2
    rw [hx] at hclaimed
    cases hclaimed
  refine ⟨?_, ?_, ?_, ?_, ?_, ?_, fun _ => nofun⟩
  · have honce := hs.once
    rw [hx, if_pos rfl] at honce
    rw [if_neg nofun, length_cons]
    dsimp only
    omega
  · intro y hy
    rcases mem_cons.mp hy with rfl | hy
    · exact ⟨hh, rfl⟩
    · exact hs.claims y hy
  · intro g hg
    by_cases heq : g = h
    · rw [heq]
      exact hh
    · rw [update_of_ne heq] at hg
      exact hs.inside g hg
  · intro g irq hg
    rcases hart_of_update hg with ⟨_, heq⟩ | ⟨_, hg⟩
    · cases heq
      exact ⟨rfl, rfl⟩
    · exact absurd hg (hnone g irq)
  · intro g g' i j hg hg'
    rcases hart_of_update hg with ⟨rfl, _⟩ | ⟨_, hg⟩
    · rcases hart_of_update hg' with ⟨rfl, _⟩ | ⟨_, hg'⟩
      · rfl
      · exact absurd hg' (hnone g' j)
    · exact absurd hg (hnone g i)
  · intro _
    exact ⟨h, hh, update_self _ _ _⟩

/-- What a gateway is after the completion. -/
def after (x : Source) : Source :=
  match x.waiting with
  | 0 => ⟨.quiet, 0⟩
  | n + 1 => ⟨.pending, n⟩

theorem complete (hs : Flow harts x hart raised claims) {h : Fin NCPU} {irq : BitVec 32}
    (hh : hart h = .serving irq) :
    Flow harts (after x) (update hart h .out) raised claims := by
  have hclaimed := (hs.serving h irq hh).2
  have honce := hs.once
  rw [hclaimed, if_neg nofun] at honce
  have hnone : ∀ g i, update hart h .out g ≠ .serving i := by
    intro g i hg
    rcases hart_of_update hg with ⟨_, heq⟩ | ⟨hne, hg⟩
    · cases heq
    · exact hne (hs.alone g h i irq hg hh)
  have hgateway : (after x).gateway ≠ .claimed := by
    unfold after
    split <;> exact nofun
  refine ⟨?_, hs.claims, ?_, fun g i hg => absurd hg (hnone g i),
    fun g _ i _ hg => absurd hg (hnone g i), fun hx => absurd hx hgateway, ?_⟩
  · unfold after
    split
    · rw [if_neg nofun]
      dsimp only
      omega
    · rw [if_pos rfl]
      dsimp only
      omega
  · intro g hg
    by_cases heq : g = h
    · rw [heq, update_self] at hg
      exact absurd rfl hg
    · rw [update_of_ne heq] at hg
      exact hs.inside g hg
  · unfold after
    split
    · exact fun hlt => absurd hlt (Nat.lt_irrefl 0)
    · exact fun _ => nofun

end Flow

structure RunInv (harts : List (Fin NCPU)) (s : Sys) : Prop where
  setup : Setup supervisor harts s.ctl
  flow : Flow harts (s.ctl.source UART0_IRQ) s.hart s.raised s.claims

theorem RunInv.delivered (hs : RunInv harts s) (hne : harts ≠ []) : Delivered harts s := by
  refine ⟨?_, hs.setup.written, hs.flow.once, hs.flow.claims, ?_, hs.flow.served, hs.flow.next⟩
  · intro h
    constructor
    · rintro ⟨henabled, _⟩
      obtain ⟨g, hg, heq⟩ := (hs.setup.enabled _).mp henabled
      rw [← supervisor_inj heq]
      exact hg
    · intro hh
      exact ⟨hs.setup.enabled_at hh, hs.setup.threshold h hh⟩
  · intro hpending
    obtain ⟨h, hh⟩ := exists_mem_of_ne_nil harts hne
    exact ⟨h, hh, hs.setup.notified hh hpending⟩

theorem start_source {ctx : Fin NCPU → Nat} (hL : L.At ctx) (priority threshold : Nat → BitVec 32)
    (harts : List (Fin NCPU)) : (start L priority threshold harts).ctl.source = fun _ => ⟨.quiet, 0⟩ := by
  have hfold : ∀ (l : List (Fin NCPU)) (p : Ctl),
      (l.foldl (fun p (h : Fin NCPU) => plicinithart L h p) p).source = p.source := by
    intro l
    induction l with
    | nil => exact fun _ => rfl
    | cons h l ih =>
      intro p
      rw [foldl_cons, ih, hL.plicinithart]
  exact hfold harts _

theorem RunInv.init (hL : L.At supervisor) (priority threshold : Nat → BitVec 32)
    (harts : List (Fin NCPU)) : RunInv harts (start L priority threshold harts) := by
  refine ⟨.start hL priority threshold harts, ?_⟩
  rw [start_source hL]
  exact .init

theorem RunInv.step (hL : L.At supervisor) (hs : RunInv harts s) {a : Act}
    (hstep : step L s a = some t) : RunInv harts t := by
  cases a with
  | raise =>
    cases hstep
    refine ⟨?_, ?_⟩
    · unfold Ctl.raise
      split <;> exact hs.setup.setSource _
    · unfold Ctl.raise
      split
      · rename_i hquiet
        exact hs.flow.raise_quiet hquiet
      · rename_i hbusy
        exact hs.flow.raise_busy hbusy
  | trap h =>
    obtain ⟨htrap, ⟨⟩⟩ := Option.ite_none_right_eq_some.mp hstep
    obtain ⟨g, hg, heq⟩ := (hs.setup.of_notified htrap.2).2
    rw [supervisor_inj heq] at hg
    refine ⟨hs.setup, hs.flow.move hg nofun ?_⟩
    rw [htrap.1]
    exact nofun
  | claim h =>
    simp only [Plic.step] at hstep
    split at hstep
    · rename_i hentered
      have hh : h ∈ harts := by
        refine hs.flow.inside h ?_
        rw [hentered]
        exact nofun
      have hclaim : plicClaim L h s.ctl = s.ctl.claim (supervisor h) := by
        simp only [plicClaim, Ctl.load, hL.sclaim h]
      have hbest := hs.setup.best hh
      by_cases hpending : (s.ctl.source UART0_IRQ).gateway = .pending
      · rw [if_pos hpending] at hbest
        have hgot : s.ctl.claim (supervisor h) = (BitVec.ofNat 32 UART0_IRQ,
            s.ctl.setSource UART0_IRQ { s.ctl.source UART0_IRQ with gateway := .claimed }) := by
          simp only [Ctl.claim, hbest]
          rfl
        rw [hclaim, hgot] at hstep
        cases hstep
        refine ⟨hs.setup.setSource _, ?_⟩
        exact hs.flow.claim hh hpending
      · rw [if_neg hpending] at hbest
        have hgot : s.ctl.claim (supervisor h) = (0, s.ctl) := by
          simp only [Ctl.claim, hbest]
          rfl
        rw [hclaim, hgot] at hstep
        cases hstep
        refine ⟨hs.setup, hs.flow.move hh nofun ?_⟩
        rw [hentered]
        exact nofun
    · cases hstep
  | complete h =>
    simp only [Plic.step] at hstep
    split at hstep
    · rename_i irq hserving
      cases hstep
      obtain ⟨rfl, hclaimed⟩ := hs.flow.serving h irq hserving
      have hh : h ∈ harts := by
        refine hs.flow.inside h ?_
        rw [hserving]
        exact nofun
      have hcomplete : plicComplete L h (BitVec.ofNat 32 UART0_IRQ) s.ctl =
          { s.ctl.setSource UART0_IRQ (Flow.after (s.ctl.source UART0_IRQ)) with
            written := .claim (supervisor h) :: s.ctl.written } := by
        have hirq : (BitVec.ofNat 32 UART0_IRQ).toNat = UART0_IRQ := rfl
        have henabled : Ctl.enabled { s.ctl with written := .claim (supervisor h) :: s.ctl.written }
            (supervisor h) UART0_IRQ = true := hs.setup.enabled_at hh
        simp only [plicComplete, Ctl.store, hL.sclaim h, hirq, Ctl.complete]
        rw [if_pos ⟨henabled, hclaimed⟩]
        unfold Flow.after
        cases (s.ctl.source UART0_IRQ).waiting <;> rfl
      rw [hcomplete]
      refine ⟨?_, ?_⟩
      · have hset := hs.setup.setSource (Flow.after (s.ctl.source UART0_IRQ))
        refine ⟨hset.enabled, hset.threshold, hset.priority, ?_, hset.quiet⟩
        intro r hr c hc
        rcases mem_cons.mp hr with rfl | hr
        · cases hc
          exact ⟨h, hh, rfl⟩
        · exact hset.written r hr c hc
      · exact hs.flow.complete hserving
    · cases hstep

theorem RunInv.run (hL : L.At supervisor) (hs : RunInv harts s) {acts : List Act}
    (hrun : run L s acts = some t) : RunInv harts t := by
  induction acts generalizing s with
  | nil =>
    cases hrun
    exact hs
  | cons a acts ih =>
    simp only [Plic.run] at hrun
    split at hrun
    · rename_i s' hstep
      exact ih (hs.step hL hstep) hrun
    · cases hrun

/-- With the addresses of the supervisor contexts every run delivers. -/
theorem delivered_of_run (hne : harts ≠ []) {priority threshold : Nat → BitVec 32} {acts : List Act}
    (hrun : run supervisorLayout (start supervisorLayout priority threshold harts) acts = some s) :
    Delivered harts s := by
  have hinit := RunInv.init supervisorLayout_at priority threshold harts
  exact (hinit.run supervisorLayout_at hrun).delivered hne

/-! ## Runs at the contexts of `memlayout.h` -/

/-- The source is enabled for no supervisor context. -/
theorem start_disabled (priority threshold : Nat → BitVec 32) (harts : List (Fin NCPU))
    (h : Fin NCPU) :
    (start memlayout priority threshold harts).ctl.enabled (supervisor h) UART0_IRQ = false := by
  refine Bool.eq_false_iff.mpr ?_
  intro henabled
  obtain ⟨g, _, hg⟩ := ((Setup.start memlayout_at priority threshold harts).enabled _).mp henabled
  unfold supervisor at hg
  omega

/-- Without a hart that has asked for interrupts the UART can only raise its own. -/
theorem first_raise {priority threshold : Nat → BitVec 32} {a : Act}
    (hstep : step memlayout (start memlayout priority threshold []) a = some t) : a = .raise := by
  cases a with
  | raise => rfl
  | trap h =>
    simp only [Plic.step] at hstep
    split at hstep
    · rename_i htrap
      obtain ⟨_, g, hg, _⟩ := (Setup.start memlayout_at priority threshold []).of_notified htrap.2
      cases hg
    · cases hstep
  | claim | complete => cases hstep

theorem start_delivered (priority threshold : Nat → BitVec 32) :
    Delivered [] (start memlayout priority threshold []) := by
  have hsetup := Setup.start memlayout_at priority threshold []
  have hflow : Flow [] ((start memlayout priority threshold []).ctl.source UART0_IRQ)
      (fun _ => .out) 0 [] := by
    exact .init
  refine ⟨?_, ?_, hflow.once, hflow.claims, ?_, hflow.served, hflow.next⟩
  · intro h
    rw [start_disabled]
    exact ⟨fun hh => absurd hh.1 Bool.false_ne_true, nofun⟩
  · intro r hr c hc
    obtain ⟨g, hg, _⟩ := hsetup.written r hr c hc
    cases hg
  · exact nofun

/-- `Delivered` holds along a run exactly if no hart has run `plicinithart` and the UART raises no
interrupt.  For with a hart its supervisor context is not enabled, the machine context of the next hart
is, and without one nobody is told of an interrupt. -/
theorem plic_delivers_iff (priority threshold : Nat → BitVec 32) (harts : List (Fin NCPU))
    (acts : List Act)
    (hrun : (run memlayout (start memlayout priority threshold harts) acts).isSome = true) :
    (∀ k s, run memlayout (start memlayout priority threshold harts) (acts.take k) = some s →
      Delivered harts s) ↔ harts = [] ∧ Act.raise ∉ acts := by
  constructor
  · intro hall
    have hnil : harts = [] := by
      by_contra hne
      obtain ⟨h, hh⟩ := exists_mem_of_ne_nil harts hne
      have henabled := ((hall 0 _ rfl).enabled h).mpr hh
      rw [start_disabled] at henabled
      cases henabled.1
    subst hnil
    refine ⟨rfl, ?_⟩
    cases acts with
    | nil => exact nofun
    | cons a acts =>
      exfalso
      simp only [Plic.run] at hrun
      split at hrun
      · rename_i t hstep
        obtain rfl := first_raise hstep
        -- the interrupt is pending and there is no hart to tell
        have hone := hall 1 t (by simp only [take_succ_cons, take_zero, Plic.run, hstep])
        cases hstep
        have hpending : ((start memlayout priority threshold []).ctl.raise UART0_IRQ).source UART0_IRQ =
            ⟨.pending, 0⟩ := by
          unfold Ctl.raise
          simp only [start_source memlayout_at, Ctl.source_setSource, if_true]
        obtain ⟨h, hh, _⟩ := hone.announced (by dsimp only; rw [hpending])
        cases hh
      · cases hrun
  · rintro ⟨rfl, hraise⟩ k s hs
    have hacts : acts = [] := by
      cases acts with
      | nil => rfl
      | cons a acts =>
        simp only [Plic.run] at hrun
        split at hrun
        · rename_i t hstep
          obtain rfl := first_raise hstep
          exact absurd mem_cons_self hraise
        · cases hrun
    rw [hacts, take_nil] at hs
    cases hs
    exact start_delivered priority threshold

end run

theorem plic_delivers_iff_idle :
    (run memlayout (start memlayout (fun _ => 0) (fun _ => 0) []) []).isSome = true ∧
      ∀ k s, run memlayout (start memlayout (fun _ => 0) (fun _ => 0) []) (take k []) = some s →
        Delivered [] s :=
  ⟨rfl, (plic_delivers_iff (fun _ => 0) (fun _ => 0) [] [] rfl).mpr ⟨rfl, nofun⟩⟩

/-- Hart 0 enables the source for context 2 in place of context 1, and is not told of an interrupt. -/
theorem plicinithart_misses_hart :
    let s := start memlayout (fun _ => 0) (fun _ => 0) [0]
    s.ctl.enabled (supervisor 0) UART0_IRQ = false ∧ s.ctl.enabled 2 UART0_IRQ = true ∧
      (run memlayout s [.raise]).map (fun t => t.ctl.notified (supervisor 0)) = some false ∧
      ¬ Delivered [0] s := by
  refine ⟨by decide, by decide, by decide +kernel, ?_⟩
  intro hs
  have henabled := ((hs.enabled 0).mpr (mem_singleton_self 0)).1
  exact absurd henabled (by decide)

end Xv6.Plic
