/-
  User loads and stores, and the bytes that `copyin` and `copyout` move.

  A load or a store goes through the page table; a page fault traps to `usertrap`, which calls
  `vmfault` and has the instruction executed again, or kills the process.  The specifications are
  for runs in which `kalloc` never fails, and say what each access does in terms of `seen`: a page
  that is not mapped yet is met as the fresh page it would become.
-/
import Xv6.Vm.Image
import Xv6.Vm.Served

namespace Xv6

open Lib Function
open Lib.Prog hiding update

/-! ## Bytes of a page -/

/-- Byte `i` of a page, in the byte order of the machine. -/
def getByte (page : Nat → Nat) (i : Nat) : Nat := page (i / 8) / 256 ^ (i % 8) % 256

def setByte (page : Nat → Nat) (i b : Nat) : Nat → Nat :=
  update page (i / 8)
    (page (i / 8) - getByte page i * 256 ^ (i % 8) + b % 256 * 256 ^ (i % 8))

def getBytes (page : Nat → Nat) (i n : Nat) : List Nat :=
  (List.range n).map fun j => getByte page (i + j)

def setBytes (page : Nat → Nat) : Nat → List Nat → Nat → Nat
  | _, [] => page
  | i, b :: bs => setBytes (setByte page i b) (i + 1) bs

/-- What `copyout` of `src` to `dstva` makes of the page at `va`, from `va` on. -/
def copyData (dstva : Nat) (src : List Nat) (va : Nat) (page : Nat → Nat) : Nat → Nat :=
  setBytes page (va % PGSIZE) ((src.drop (va - dstva)).take (PGSIZE - va % PGSIZE))

/-! ## Accesses -/

/-- The walk of the hardware for an access that needs bit `bit` of the entry. `none` is a page
    fault. -/
def translate (pagetable va bit : Nat) : MachM (Option Nat) := do
  match ← walk pagetable (PGROUNDDOWN va) false with
  | none => pure none
  | some p => do
    let pte ← load p
    if pte.testBit 0 ∧ pte.testBit 4 ∧ pte.testBit bit then pure (some (PTE2PA pte))
    else pure none

/-- An access of the user program to `va`: the frame, or `none` where `usertrap` kills the
    process. -/
def userAccess (pagetable sz va bit : Nat) : MachM (Option Nat) := do
  match ← translate pagetable va bit with
  | some pa => pure (some pa)
  | none =>
    match ← vmfault pagetable sz pagetable va with
    | none => pure none
    | some _ => translate pagetable va bit

def loadByte (pagetable sz va : Nat) : MachM (Option Nat) := do
  match ← userAccess pagetable sz va 1 with
  | none => pure none
  | some pa => do
    let b ← look fun s => getByte (s.mem pa) (va % PGSIZE)
    pure (some b)

def storeByte (pagetable sz va b : Nat) : MachM Bool := do
  match ← userAccess pagetable sz va 2 with
  | none => pure false
  | some pa => do
    Prog.update fun s => s.setPage pa (setByte (s.mem pa) (va % PGSIZE) b)
    pure true

/-- `copyinLoop` with the bytes it has copied. -/
def copyinBytesLoop (own sz pagetable : Nat) : Nat → Nat → Nat → MachM (Bool × List Nat)
  | 0, _, _ => pure (true, [])
  | fuel + 1, srcva, len =>
    if len = 0 then pure (true, [])
    else do
      let va0 := PGROUNDDOWN srcva
      match ← userPage own sz pagetable va0 with
      | none => pure (false, [])
      | some pa0 => do
        let bytes ← look fun s =>
          getBytes (s.mem pa0) (srcva - va0) (min (PGSIZE - (srcva - va0)) len)
        let (ok, rest) ← copyinBytesLoop own sz pagetable fuel (va0 + PGSIZE)
          (len - min (PGSIZE - (srcva - va0)) len)
        pure (ok, bytes ++ rest)

def copyinBytes (own sz pagetable srcva len : Nat) : MachM (Bool × List Nat) :=
  copyinBytesLoop own sz pagetable len srcva len

/-! ## What they do to the pages the user sees -/

/-- Page `v` is below the size and open to the user. -/
def Inside (sz : Nat) (page : Nat → Nat × (Nat → Nat)) (v : Nat) : Prop :=
  v < npages sz ∧ (page v).1.testBit 4

instance (sz : Nat) (page : Nat → Nat × (Nat → Nat)) (v : Nat) : Decidable (Inside sz page v) :=
  inferInstanceAs (Decidable (_ ∧ _))

/-- A load of the user, on the pages it sees. -/
def loadSeen (page : Nat → Nat × (Nat → Nat)) (va : Nat) : Option Nat :=
  if (page (va / PGSIZE)).1.testBit 4 ∧ (page (va / PGSIZE)).1.testBit 1 then
    some (getByte (page (va / PGSIZE)).2 (va % PGSIZE))
  else none

/-- New contents of a page. -/
def writePage (page : Nat → Nat × (Nat → Nat)) (v : Nat) (d : Nat → Nat) :
    Nat → Nat × (Nat → Nat) := update page v ((page v).1, d)

def storeSeen (page : Nat → Nat × (Nat → Nat)) (va b : Nat) :
    Bool × (Nat → Nat × (Nat → Nat)) :=
  if (page (va / PGSIZE)).1.testBit 4 ∧ (page (va / PGSIZE)).1.testBit 2 then
    (true, writePage page (va / PGSIZE) (setByte (page (va / PGSIZE)).2 (va % PGSIZE) b))
  else (false, page)

/-- `copyin` on the pages the user sees. -/
def copyinSeen (sz : Nat) (page : Nat → Nat × (Nat → Nat)) : Nat → Nat → Nat → Bool × List Nat
  | 0, _, _ => (true, [])
  | fuel + 1, va, len =>
    if len = 0 then (true, [])
    else if Inside sz page (va / PGSIZE) then
      let rest := copyinSeen sz page fuel (PGROUNDDOWN va + PGSIZE)
        (len - min (PGSIZE - (va - PGROUNDDOWN va)) len)
      (rest.1, getBytes (page (va / PGSIZE)).2 (va - PGROUNDDOWN va)
        (min (PGSIZE - (va - PGROUNDDOWN va)) len) ++ rest.2)
    else (false, [])

/-- `copyout` on the pages the user sees. -/
def copyoutSeen (sz : Nat) (data : Nat → (Nat → Nat) → Nat → Nat) :
    Nat → Nat → Nat → (Nat → Nat × (Nat → Nat)) → Bool × (Nat → Nat × (Nat → Nat))
  | 0, _, _, page => (true, page)
  | fuel + 1, va, len, page =>
    if len = 0 then (true, page)
    else if Inside sz page (va / PGSIZE) ∧ (page (va / PGSIZE)).1.testBit 2 then
      copyoutSeen sz data fuel (PGROUNDDOWN va + PGSIZE)
        (len - min (PGSIZE - (va - PGROUNDDOWN va)) len)
        (writePage page (va / PGSIZE) (data va (page (va / PGSIZE)).2))
    else (false, page)

section access

variable {r sz tramp tf va : Nat} {s : Mach} {T : Tree} {H : Multiset Nat} {guard : Option Nat}

theorem testBit_PTE_FLAGS (w : Nat) {i : Nat} (hi : i < 10) :
    (PTE_FLAGS w).testBit i = w.testBit i := by
  unfold PTE_FLAGS
  rw [show 1024 = 2 ^ 10 from rfl, Nat.testBit_mod_two_pow]
  simp [hi]

theorem testBit_freshPage {i : Nat} (hi : i = 1 ∨ i = 2 ∨ i = 4) :
    freshPage.1.testBit i = true := by
  rcases hi with rfl | rfl | rfl <;> rfl

/-- The address space of a process whose pages are in the tree `T`. -/
structure Mem (s : Mach) (r : Nat) (T : Tree) (H : Multiset Nat) (sz : Nat) (guard : Option Nat)
    (tramp tf : Nat) : Prop where
  holds : Holds s r T H
  space : Space T.leaf sz guard tramp tf

/-- Pages were faulted in on the way from `s` to `t`. -/
structure FaultsTo (r : Nat) (s : Mach) (T : Tree) (H : Multiset Nat) (sz : Nat) (t : Mach)
    (T' : Tree) : Prop where
  goes : Goes r s T H t T' H
  faulted : Faulted sz T.leaf T'.leaf

variable {t u : Mach} {T' T'' : Tree}

theorem FaultsTo.refl (h : Holds s r T H) : FaultsTo r s T H sz s T :=
  ⟨Goes.refl h, Faulted.refl _ _⟩

theorem FaultsTo.trans (f : FaultsTo r s T H sz t T') (f' : FaultsTo r t T' H sz u T'') :
    FaultsTo r s T H sz u T'' :=
  ⟨f.goes.trans f'.goes, f.faulted.trans f'.faulted⟩

theorem Mem.faults (h : Mem s r T H sz guard tramp tf) (f : FaultsTo r s T H sz t T') :
    Mem t r T' H sz guard tramp tf :=
  ⟨h.holds.goes f.goes, h.space.faulted f.faulted⟩

/-- What the user sees of a page, from its entry. -/
theorem seen_flag {v i : Nat} (hi : i = 1 ∨ i = 2 ∨ i = 4) (hv : v < UPAGES) :
    (seen s T v).1.testBit i = (!(T.leaf v).testBit 0 || (T.leaf v).testBit i) := by
  cases hV : (T.leaf v).testBit 0 with
  | false =>
    rw [seen_invalid hV, testBit_freshPage hi]
    rfl
  | true =>
    rw [seen_valid hv hV]
    have hlt : i < 10 := by omega
    rw [testBit_PTE_FLAGS _ hlt]
    rfl

theorem granted_vmfault (h : Mem s r T H sz guard tramp tf) :
    granted (fun o t => ∃ T', FaultsTo r s T H sz t T' ∧ seen t T' = seen s T ∧
      match o with
      | none => T' = T ∧ t = s ∧ (sz ≤ va ∨ (T.leaf (va / PGSIZE)).testBit 0)
      | some x => va / PGSIZE < npages sz ∧ T.leaf (va / PGSIZE) = 0 ∧ x % 4096 = 0 ∧
          T'.leaf (va / PGSIZE) = leafPte x faultPerm)
      (vmfault r sz r va) s := by
  have hsz := h.space.npages_le
  have hserved : served (fun o _ => o = none → va ≥ sz ∨ (T.leaf (va / PGSIZE)).testBit 0)
      (vmfault r sz r va) s := by
    refine served_vmfault fun hlt => served_of_wp ?_
    have hv := lt_npages (Nat.lt_of_not_le hlt)
    exact wp_ismapped h.holds.rep (user_lt_MAXVA (by omega)) id
  refine given_mono (given_and_wp hserved (wp_vmfault (Q := fun o t =>
    (o = none ∧ t = s) ∨ (o = none ∧ va < sz ∧ T.leaf (va / PGSIZE) = 0) ∨
    ∃ x T', o = some x ∧ va / PGSIZE < npages sz ∧ T.leaf (va / PGSIZE) = 0 ∧ x % 4096 = 0 ∧
      Goes r s T H t T' H ∧
      T'.leaf = update T.leaf (va / PGSIZE) (leafPte x faultPerm) ∧
      Keeps (T.pages + H) s t ∧ ∀ j, t.mem x j = 0) h.holds hsz ?_ ?_ ?_)) ?_
  · intro _
    exact Or.inl ⟨rfl, rfl⟩
  · intro t T' hlt h0 _ _ _
    exact Or.inr (Or.inl ⟨rfl, hlt, h0⟩)
  · intro x t T' hlt h0 hx g hleaf hk hz
    exact Or.inr (Or.inr ⟨x, T', rfl, hlt, h0, hx, g, hleaf, hk, hz⟩)
  · rintro o t ⟨hno, ⟨rfl, rfl⟩ | ⟨rfl, hlt, h0⟩ | ⟨x, T', rfl, hlt, h0, hx, g, hleaf, hk, hz⟩⟩
    · exact ⟨T, FaultsTo.refl h.holds, rfl, rfl, rfl, hno rfl⟩
    · -- out of memory: not in these runs
      rcases hno rfl with hge | hV
      · exact absurd hlt (Nat.not_lt.mpr hge)
      · rw [h0] at hV
        cases hV
    · have hnew : T'.leaf (va / PGSIZE) = leafPte x faultPerm := by
        rw [hleaf, update_self]
      refine ⟨T', ⟨g, ?_⟩, ?_, hlt, h0, hx, hnew⟩
      · intro w
        rcases eq_or_ne w (va / PGSIZE) with heq | hne
        · rw [heq]
          exact Or.inr ⟨h0, hlt, x, hx, hnew⟩
        · rw [hleaf, update_of_ne hne]
          exact Or.inl rfl
      · exact seen_fault hx h0 hleaf
          (hk.mono (Multiset.subset_of_le (Multiset.le_add_right _ _))) hz

/-- `walkaddr`, and `vmfault` if that fails: the frame of the page if the page is the user's. -/
theorem granted_userPage {v : Nat} (h : Mem s r T H sz guard tramp tf) :
    granted (fun o t => ∃ T', FaultsTo r s T H sz t T' ∧ seen t T' = seen s T ∧
      match o with
      | none => ¬ Inside sz (seen s T) v
      | some pa => Inside sz (seen s T) v ∧ v < UPAGES ∧ (T'.leaf v).testBit 0 ∧
          pa = PTE2PA (T'.leaf v))
      (userPage r sz r (v * PGSIZE)) s := by
  have hsz := h.space.npages_le
  refine (given_bind _ _).mpr (given_of_wp (wp_walkaddr h.holds.rep ?_ ?_))
  · intro hno
    refine given_mono (granted_vmfault h) ?_
    rintro o t ⟨T', hf, hseen, ho⟩
    rw [Nat.mul_div_cancel _ (by decide)] at ho
    refine ⟨T', hf, hseen, ?_⟩
    cases o with
    | none =>
      rintro ⟨hlt, hU⟩
      obtain ⟨-, -, hge | hV⟩ := ho
      · have hlt' := npages_mono hge
        rw [npages_mul] at hlt'
        omega
      · have hv : v < UPAGES := by omega
        rw [seen_flag (by omega) hv, hV] at hU
        exact hno ⟨user_lt_MAXVA hv, hV, hU⟩
    | some x =>
      obtain ⟨hlt, h0, hx, hnew⟩ := ho
      have hv : v < UPAGES := by omega
      refine ⟨⟨hlt, ?_⟩, hv, ?_, ?_⟩
      · rw [seen_flag (by omega) hv, h0]
        rfl
      · rw [hnew]
        exact leafPte_valid _ _
      · rw [hnew, PTE2PA_leafPte hx (by decide)]
  · intro _ hV hU
    have hv : v < UPAGES := by
      by_contra hge
      rw [h.space.highNoUser v (by omega)] at hU
      cases hU
    refine ⟨T, FaultsTo.refl h.holds, rfl, ⟨h.space.below v hv hV, ?_⟩, hv, hV, rfl⟩
    rw [seen_flag (by omega) hv, hU, Bool.or_true]

theorem granted_copyinBytesLoop : ∀ (fuel : Nat) {s : Mach} {T : Tree} {srcva len : Nat},
    Mem s r T H sz guard tramp tf →
    granted (fun res t => ∃ T', FaultsTo r s T H sz t T' ∧ seen t T' = seen s T ∧
      res = copyinSeen sz (seen s T) fuel srcva len) (copyinBytesLoop r sz r fuel srcva len) s
  | 0, s, T, _, _, h => ⟨T, FaultsTo.refl h.holds, rfl, rfl⟩
  | fuel + 1, s, T, srcva, len, h => by
    unfold copyinBytesLoop copyinSeen
    split
    · exact ⟨T, FaultsTo.refl h.holds, rfl, rfl⟩
    · refine given_seq (granted_userPage h) ?_
      rintro o t ⟨T', hf, hseen, ho⟩
      cases o with
      | none =>
        refine ⟨T', hf, hseen, ?_⟩
        rw [if_neg ho]
      | some pa =>
        obtain ⟨hin, hv, hV, rfl⟩ := ho
        rw [if_pos hin]
        refine (given_bind _ _).mpr (given_look trivial ?_)
        refine given_seq (granted_copyinBytesLoop fuel (h.faults hf)) ?_
        rintro ⟨ok, rest⟩ u ⟨T'', hf', hseen', hres⟩
        refine ⟨T'', hf.trans hf', hseen'.trans hseen, ?_⟩
        rw [hseen] at hres
        rw [← hres, ← hseen, seen_valid hv hV]

theorem granted_copyinBytes {len : Nat} (h : Mem s r T H sz guard tramp tf) :
    granted (fun res t => ∃ T', FaultsTo r s T H sz t T' ∧ seen t T' = seen s T ∧
      res = copyinSeen sz (seen s T) len va len) (copyinBytes r sz r va len) s :=
  granted_copyinBytesLoop len h

/-- A user page is overwritten. -/
theorem FaultsTo.write {v : Nat} (sz : Nat) (h : Holds s r T H) (hv : v < UPAGES)
    (hV : (T.leaf v).testBit 0) (d : Nat → Nat) :
    FaultsTo r s T H sz (s.setPage (PTE2PA (T.leaf v)) d) T :=
  ⟨Goes.writePage h (mem_pages hv hV) d, Faulted.refl _ _⟩

theorem granted_copyoutLoop {data : Nat → (Nat → Nat) → Nat → Nat} :
    ∀ (fuel : Nat) {s : Mach} {T : Tree} {dstva len : Nat}, Mem s r T H sz guard tramp tf →
    granted (fun b t => ∃ T', FaultsTo r s T H sz t T' ∧
      (b, seen t T') = copyoutSeen sz data fuel dstva len (seen s T))
      (copyoutLoop r sz r data fuel dstva len) s
  | 0, s, T, _, _, h => ⟨T, FaultsTo.refl h.holds, rfl⟩
  | fuel + 1, s, T, dstva, len, h => by
    have hsz := h.space.npages_le
    unfold copyoutLoop copyoutSeen
    split
    · exact ⟨T, FaultsTo.refl h.holds, rfl⟩
    by_cases hmax : PGROUNDDOWN dstva ≥ MAXVA
    · rw [if_pos hmax]
      refine ⟨T, FaultsTo.refl h.holds, ?_⟩
      rw [if_neg]
      rintro ⟨⟨hlt, -⟩, -⟩
      have hv : dstva / PGSIZE < UPAGES := by omega
      exact absurd (user_lt_MAXVA hv) (Nat.not_lt.mpr hmax)
    rw [if_neg hmax]
    refine given_seq (granted_userPage h) ?_
    rintro o t ⟨T', hf, hseen, ho⟩
    cases o with
    | none =>
      refine ⟨T', hf, ?_⟩
      rw [if_neg fun hc => ho hc.1, hseen]
    | some pa =>
      obtain ⟨hin, hv, hV, rfl⟩ := ho
      have ht := h.faults hf
      refine (given_bind _ _).mpr (given_of_wp (wp_walk_valid ht.holds.rep
        (user_lt_MAXVA hv) hV fun p hp => ?_))
      refine (given_bind _ _).mpr (given_of_wp (wp_load _ ?_))
      rw [ht.holds.rep.load_slot hp]
      have hW : (seen s T (dstva / PGSIZE)).1.testBit 2 = (T'.leaf (dstva / PGSIZE)).testBit 2 := by
        rw [← hseen, seen_flag (by omega) hv, hV]
        rfl
      cases hbit : (T'.leaf (dstva / PGSIZE)).testBit 2 with
      | false =>
        refine ⟨T', hf, ?_⟩
        rw [if_neg, hseen]
        rintro ⟨-, hc⟩
        rw [hW, hbit] at hc
        cases hc
      | true =>
        rw [if_pos ⟨hin, hW.trans hbit⟩]
        refine (given_bind _ _).mpr (given_update trivial ?_)
        have hwr := FaultsTo.write sz ht.holds hv hV
          (data dstva (t.mem (PTE2PA (T'.leaf (dstva / PGSIZE)))))
        refine given_mono (granted_copyoutLoop fuel (ht.faults hwr)) ?_
        rintro b u ⟨T'', hf', hres⟩
        refine ⟨T'', hf.trans (hwr.trans hf'), ?_⟩
        rw [hres, seen_write ht.holds hv hV]
        unfold writePage
        rw [← hseen, seen_valid hv hV]

theorem granted_copyout {len : Nat} {data : Nat → (Nat → Nat) → Nat → Nat}
    (h : Mem s r T H sz guard tramp tf) :
    granted (fun b t => ∃ T', FaultsTo r s T H sz t T' ∧
      (b, seen t T') = copyoutSeen sz data len va len (seen s T)) (copyout r sz r va len data) s :=
  granted_copyoutLoop len h

/-! ## Loads and stores -/

theorem wp_translate {Q : Option Nat → Mach → Prop} {bit : Nat} (h : Rep s.mem r T)
    (hv : va / PGSIZE < UPAGES)
    (hQ : Q (if (T.leaf (va / PGSIZE)).testBit 0 ∧ (T.leaf (va / PGSIZE)).testBit 4 ∧
      (T.leaf (va / PGSIZE)).testBit bit then some (PTE2PA (T.leaf (va / PGSIZE))) else none) s) :
    wp Crit.total Q (translate r va bit) s := by
  unfold translate
  rw [wp_bind]
  refine wp_walk_false h (user_lt_MAXVA hv) ?_
  cases hp : T.slot (va / PGSIZE) with
  | none =>
    rw [if_neg] at hQ
    · exact hQ
    · rw [h.leaf_of_slot_none hp]
      exact fun hc => Bool.false_ne_true hc.1
  | some p =>
    rw [wp_bind]
    refine wp_load _ ?_
    rw [h.load_slot hp]
    split
    · rename_i hc
      rw [if_pos hc] at hQ
      exact hQ
    · rename_i hc
      rw [if_neg hc] at hQ
      exact hQ

theorem granted_userAccess {bit : Nat} (h : Mem s r T H sz guard tramp tf) (hva : va < sz)
    (hb : bit = 1 ∨ bit = 2) :
    granted (fun o t => ∃ T', FaultsTo r s T H sz t T' ∧ seen t T' = seen s T ∧
      match o with
      | none => ¬ ((seen s T (va / PGSIZE)).1.testBit 4 ∧ (seen s T (va / PGSIZE)).1.testBit bit)
      | some pa => ((seen s T (va / PGSIZE)).1.testBit 4 ∧
            (seen s T (va / PGSIZE)).1.testBit bit) ∧
          va / PGSIZE < UPAGES ∧ (T'.leaf (va / PGSIZE)).testBit 0 ∧
          pa = PTE2PA (T'.leaf (va / PGSIZE)))
      (userAccess r sz va bit) s := by
  have hsz := h.space.npages_le
  have hv : va / PGSIZE < UPAGES := Nat.lt_of_lt_of_le (lt_npages hva) hsz
  have h4 := seen_flag (s := s) (T := T) (i := 4) (by omega) hv
  have hbit := seen_flag (s := s) (T := T) (i := bit) (by omega) hv
  refine (given_bind _ _).mpr (given_of_wp (wp_translate h.holds.rep hv ?_))
  split
  · rename_i pa hpa
    split at hpa
    · rename_i hc
      cases hpa
      refine ⟨T, FaultsTo.refl h.holds, rfl, ⟨?_, ?_⟩, hv, hc.1, rfl⟩
      · rw [h4, hc.2.1, Bool.or_true]
      · rw [hbit, hc.2.2, Bool.or_true]
    · cases hpa
  · rename_i hnone
    split at hnone
    · cases hnone
    rename_i hc
    refine given_seq (granted_vmfault h) ?_
    rintro o t ⟨T', hf, hseen, ho⟩
    cases o with
    | none =>
      obtain ⟨-, -, hge | hV⟩ := ho
      · omega
      refine ⟨T', hf, hseen, ?_⟩
      rw [h4, hbit, hV]
      exact fun hc' => hc ⟨hV, hc'⟩
    | some x =>
      obtain ⟨-, h0, hx, hnew⟩ := ho
      have ht := h.faults hf
      have hperm : ∀ i, i = 0 ∨ i = 1 ∨ i = 2 ∨ i = 4 →
          (T'.leaf (va / PGSIZE)).testBit i = true := by
        intro i hi
        rw [hnew, testBit_leafPte x (by decide) (by omega)]
        rcases hi with rfl | rfl | rfl | rfl <;> rfl
      refine given_of_wp (wp_translate ht.holds.rep hv ?_)
      rw [if_pos ⟨hperm 0 (by omega), hperm 4 (by omega), hperm bit (by omega)⟩]
      refine ⟨T', hf, hseen, ⟨?_, ?_⟩, hv, hperm 0 (by omega), rfl⟩
      · rw [h4, h0]
        rfl
      · rw [hbit, h0]
        rfl

theorem granted_loadByte (h : Mem s r T H sz guard tramp tf) (hva : va < sz) :
    granted (fun o t => ∃ T', FaultsTo r s T H sz t T' ∧ seen t T' = seen s T ∧
      o = loadSeen (seen s T) va) (loadByte r sz va) s := by
  unfold loadByte loadSeen
  refine given_seq (granted_userAccess h hva (Or.inl rfl)) ?_
  rintro o t ⟨T', hf, hseen, ho⟩
  cases o with
  | none =>
    refine ⟨T', hf, hseen, ?_⟩
    rw [if_neg ho]
  | some pa =>
    obtain ⟨hc, hv, hV, rfl⟩ := ho
    refine (given_bind _ _).mpr (given_look trivial ⟨T', hf, hseen, ?_⟩)
    rw [if_pos hc, ← hseen, seen_valid hv hV]

theorem granted_storeByte {b : Nat} (h : Mem s r T H sz guard tramp tf) (hva : va < sz) :
    granted (fun o t => ∃ T', FaultsTo r s T H sz t T' ∧
      (o, seen t T') = storeSeen (seen s T) va b) (storeByte r sz va b) s := by
  unfold storeByte storeSeen
  refine given_seq (granted_userAccess h hva (Or.inr rfl)) ?_
  rintro o t ⟨T', hf, hseen, ho⟩
  cases o with
  | none =>
    refine ⟨T', hf, ?_⟩
    rw [if_neg ho, hseen]
  | some pa =>
    obtain ⟨hc, hv, hV, rfl⟩ := ho
    have ht := h.faults hf
    have hwr := FaultsTo.write sz ht.holds hv hV
      (setByte (t.mem (PTE2PA (T'.leaf (va / PGSIZE)))) (va % PGSIZE) b)
    refine (given_bind _ _).mpr (given_update trivial ⟨T', hf.trans hwr, ?_⟩)
    rw [if_pos hc, seen_write ht.holds hv hV]
    unfold writePage
    rw [← hseen, seen_valid hv hV]

end access

end Xv6
