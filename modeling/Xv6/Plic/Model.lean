/-
  The platform-level interrupt controller and its driver: `kernel/plic.c`, the addresses of
  `kernel/memlayout.h`, and what `devintr` of `kernel/trap.c` does for an external interrupt.

  The controller is the one of the RISC-V specification.  A context is a place that interrupts can be
  delivered to; each has its enable bits, its threshold and its claim register.  The device tree lists
  the contexts of this machine hart by hart, first that of machine mode and then that of supervisor
  mode.  A source has a gateway, which lets one interrupt through at a time.

  The addresses of the driver are a parameter (`Layout`); `memlayout` are those of the source.
-/
import Xv6.Param
import Mathlib.Data.BitVec

namespace Xv6.Plic

def PLIC : Nat := 0xe0000000

def UART0_IRQ : Nat := 74

/-- Sources are numbered from 1. -/
def NSOURCE : Nat := 160

/-! ## The controller -/

inductive Reg where
  | priority (irq : Nat)
  | enable (context word : Nat)
  | threshold (context : Nat)
  | claim (context : Nat)
  deriving DecidableEq

def Reg.context : Reg → Option Nat
  | .priority _ => none
  | .enable c _ => some c
  | .threshold c => some c
  | .claim c => some c

/-- The register at an address.  The pending bits, from 0x1000 on, cannot be written. -/
def decode (a : Nat) : Option Reg :=
  let off := a - PLIC
  if a < PLIC then none
  else if off < 0x1000 then some (.priority (off / 4))
  else if off < 0x2000 then none
  else if off < 0x200000 then some (.enable ((off - 0x2000) / 0x80) ((off - 0x2000) % 0x80 / 4))
  else if (off - 0x200000) % 0x1000 = 0 then some (.threshold ((off - 0x200000) / 0x1000))
  else if (off - 0x200000) % 0x1000 = 4 then some (.claim ((off - 0x200000) / 0x1000))
  else none

inductive Gateway where
  | quiet
  | pending
  | claimed
  deriving DecidableEq

structure Source where
  gateway : Gateway
  /-- Raised while the gateway was closed. -/
  waiting : Nat

structure Ctl where
  priority : Nat → BitVec 32
  enable : Nat → Nat → BitVec 32
  threshold : Nat → BitVec 32
  source : Nat → Source
  /-- The registers that have been written. -/
  written : List Reg

namespace Ctl

def enabled (p : Ctl) (c irq : Nat) : Bool := (p.enable c (irq / 32)).getLsbD (irq % 32)

def setSource (p : Ctl) (irq : Nat) (x : Source) : Ctl :=
  { p with source := Function.update p.source irq x }

def raise (p : Ctl) (irq : Nat) : Ctl :=
  match (p.source irq).gateway with
  | .quiet => p.setSource irq { p.source irq with gateway := .pending }
  | _ => p.setSource irq { p.source irq with waiting := (p.source irq).waiting + 1 }

/-- The interrupt can be claimed by the context. -/
def claimable (p : Ctl) (c irq : Nat) : Bool :=
  0 < irq ∧ (p.source irq).gateway = .pending ∧ p.enabled c irq = true ∧ p.priority irq ≠ 0

/-- The context is told that there is an interrupt. -/
def notified (p : Ctl) (c : Nat) : Bool :=
  (List.range NSOURCE).any fun irq => p.claimable c irq && p.threshold c < p.priority irq

/-- The interrupt of the highest priority, and among those the one with the lowest number. -/
def best (p : Ctl) (c : Nat) : Nat :=
  (List.range NSOURCE).foldl (fun b irq =>
    if p.claimable c irq = true ∧ (b = 0 ∨ p.priority b < p.priority irq) then irq else b) 0

def claim (p : Ctl) (c : Nat) : BitVec 32 × Ctl :=
  let irq := p.best c
  (BitVec.ofNat 32 irq,
    if irq = 0 then p else p.setSource irq { p.source irq with gateway := .claimed })

/-- Of no effect if the interrupt is not enabled for the context. -/
def complete (p : Ctl) (c irq : Nat) : Ctl :=
  if p.enabled c irq = true ∧ (p.source irq).gateway = .claimed then
    match (p.source irq).waiting with
    | 0 => p.setSource irq ⟨.quiet, 0⟩
    | n + 1 => p.setSource irq ⟨.pending, n⟩
  else p

def store (p : Ctl) (a : Nat) (v : BitVec 32) : Ctl :=
  match decode a with
  | none => p
  | some r =>
    let p := { p with written := r :: p.written }
    match r with
    | .priority irq => { p with priority := Function.update p.priority irq v }
    | .enable c w => { p with enable := Function.update p.enable c (Function.update (p.enable c) w v) }
    | .threshold c => { p with threshold := Function.update p.threshold c v }
    | .claim c => p.complete c v.toNat

def load (p : Ctl) (a : Nat) : BitVec 32 × Ctl :=
  match decode a with
  | none => (0, p)
  | some (.priority irq) => (p.priority irq, p)
  | some (.enable c w) => (p.enable c w, p)
  | some (.threshold c) => (p.threshold c, p)
  | some (.claim c) => p.claim c

/-- After a reset nothing is enabled. -/
def reset (priority threshold : Nat → BitVec 32) : Ctl where
  priority := priority
  enable := fun _ _ => 0
  threshold := threshold
  source := fun _ => ⟨.quiet, 0⟩
  written := []

end Ctl

/-! ## The driver -/

/-- The addresses of the registers of a hart. -/
structure Layout where
  PLIC_SENABLE : Nat → Nat
  PLIC_SPRIORITY : Nat → Nat
  PLIC_SCLAIM : Nat → Nat

/-- Those of `memlayout.h`. -/
def memlayout : Layout where
  PLIC_SENABLE := fun hart => PLIC + 0x2080 + (hart * 2 + 1) * 0x80
  PLIC_SPRIORITY := fun hart => PLIC + 0x201000 + (hart * 2 + 1) * 0x1000
  PLIC_SCLAIM := fun hart => PLIC + 0x201004 + (hart * 2 + 1) * 0x1000

section driver

variable (L : Layout)

def plicinit (p : Ctl) : Ctl := p.store (PLIC + UART0_IRQ * 4) 1

def plicinithart (hart : Nat) (p : Ctl) : Ctl :=
  let reg := UART0_IRQ / 32
  let p := p.store (L.PLIC_SENABLE hart + 4 * reg) (1 <<< (UART0_IRQ % 32))
  p.store (L.PLIC_SPRIORITY hart) 0

def plicClaim (hart : Nat) (p : Ctl) : BitVec 32 × Ctl := p.load (L.PLIC_SCLAIM hart)

def plicComplete (hart : Nat) (irq : BitVec 32) (p : Ctl) : Ctl := p.store (L.PLIC_SCLAIM hart) irq

/-! ## Runs -/

/-- Where a hart is in `devintr`. -/
inductive Hart where
  | out
  /-- `scause` is 0x8000000000000009. -/
  | entered
  | serving (irq : BitVec 32)
  deriving DecidableEq

structure Sys where
  ctl : Ctl
  hart : Fin NCPU → Hart
  /-- How often the UART has raised its interrupt. -/
  raised : Nat
  /-- What `plic_claim` has returned, where not 0. -/
  claims : List (Fin NCPU × BitVec 32)

inductive Act where
  | raise
  | trap (h : Fin NCPU)
  | claim (h : Fin NCPU)
  | complete (h : Fin NCPU)

/-- The context of supervisor mode. -/
def supervisor (h : Fin NCPU) : Nat := 2 * h.val + 1

/-- One step; none if it is not possible. -/
def step (s : Sys) : Act → Option Sys
  | .raise => some { s with ctl := s.ctl.raise UART0_IRQ, raised := s.raised + 1 }
  -- a hart enters `devintr` when its context is told that there is an interrupt
  | .trap h =>
    if s.hart h = .out ∧ s.ctl.notified (supervisor h) = true then
      some { s with hart := Function.update s.hart h .entered }
    else none
  | .claim h =>
    match s.hart h with
    | .entered =>
      let (irq, ctl) := plicClaim L h s.ctl
      -- another hart may have been first
      if irq = 0 then some { s with ctl := ctl, hart := Function.update s.hart h .out }
      else
        some { s with
          ctl := ctl
          hart := Function.update s.hart h (.serving irq)
          claims := (h, irq) :: s.claims }
    | _ => none
  | .complete h =>
    match s.hart h with
    | .serving irq =>
      some { s with ctl := plicComplete L h irq s.ctl, hart := Function.update s.hart h .out }
    | _ => none

def run : Sys → List Act → Option Sys
  | s, [] => some s
  | s, a :: acts =>
    match step L s a with
    | some t => run t acts
    | none => none

/-- `plicinit`, and then `plicinithart` of the harts. -/
def start (priority threshold : Nat → BitVec 32) (harts : List (Fin NCPU)) : Sys where
  ctl := harts.foldl (fun p (h : Fin NCPU) => plicinithart L h p) (plicinit (.reset priority threshold))
  hart := fun _ => .out
  raised := 0
  claims := []

end driver

end Xv6.Plic
