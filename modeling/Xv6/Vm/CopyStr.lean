/-
  `copyinstr`, beside `copyin`.

  `copyinstr` looks pages up with `walkaddr` alone and gives up where `copyin` would fault a page
  in.  So it reads strings as `copyin` does exactly if no page that is still to be allocated comes
  before the first NUL (`copyinstr_like_copyin`); a fresh page would be the NUL.
-/
import Xv6.Vm.Copy

namespace Xv6

open Lib Lib.Prog

/-- The inner loop of `copyinstr`: at most `n` bytes of a page from byte `i` on, whether a NUL was
    among them, and what has been stored in `dst`. -/
def copyStr (page : Nat → Nat) : Nat → Nat → Bool × List Nat
  | 0, _ => (false, [])
  | n + 1, i =>
    if getByte page i = 0 then (true, [0])
    else
      let rest := copyStr page n (i + 1)
      (rest.1, getByte page i :: rest.2)

def copyinstrLoop (pagetable : Nat) : Nat → Nat → Nat → MachM (Bool × List Nat)
  | 0, _, _ => pure (false, [])
  | fuel + 1, srcva, max =>
    if max = 0 then pure (false, [])
    else do
      let va0 := PGROUNDDOWN srcva
      match ← walkaddr pagetable va0 with
      | none => pure (false, [])
      | some pa0 => do
        let n := min (PGSIZE - (srcva - va0)) max
        let str ← look fun s => copyStr (s.mem pa0) n (srcva - va0)
        if str.1 then pure (true, str.2)
        else do
          let rest ← copyinstrLoop pagetable fuel (va0 + PGSIZE) (max - n)
          pure (rest.1, str.2 ++ rest.2)

/-- The result and the bytes stored in `dst`. -/
def copyinstr (pagetable srcva max : Nat) : MachM (Bool × List Nat) :=
  copyinstrLoop pagetable max srcva max

/-! ## What is read -/

/-- A string of at most `max` bytes at `va` on pages that are accessible as they are. -/
structure StrRead (page : Nat → Nat × (Nat → Nat)) (leaf : Nat → Nat) (va max : Nat)
    (res : Bool × List Nat) : Prop where
  found : res.1 = true → ∃ k, k < max ∧ res.2 = userBytes page va (k + 1) ∧
    (∀ i, i ≤ k → Accessible false leaf ((va + i) / PGSIZE)) ∧ userByte page (va + k) = 0 ∧
    ∀ i, i < k → userByte page (va + i) ≠ 0
  missed : res.1 = false → ∀ k, k < max →
    (∀ i, i ≤ k → Accessible false leaf ((va + i) / PGSIZE)) → userByte page (va + k) ≠ 0
  bound : res.2.length ≤ max

section strings

variable {r sz tramp tf va max : Nat} {s : Mach} {T : Tree} {H : Multiset Nat} {guard : Option Nat}
  {page : Nat → Nat × (Nat → Nat)} {leaf : Nat → Nat}

/-- The inner loop stays on one page, whose bytes are those of the user. -/
theorem copyStr_spec {p : Nat → Nat} : ∀ (n : Nat) {i va : Nat},
    (∀ j, j < n → getByte p (i + j) = userByte page (va + j)) →
    ((copyStr p n i).1 = true ∧ ∃ k, k < n ∧ (copyStr p n i).2 = userBytes page va (k + 1) ∧
      userByte page (va + k) = 0 ∧ ∀ j, j < k → userByte page (va + j) ≠ 0) ∨
    ((copyStr p n i).1 = false ∧ (copyStr p n i).2 = userBytes page va n ∧
      ∀ j, j < n → userByte page (va + j) ≠ 0)
  | 0, i, va, _ => by
    refine Or.inr ⟨rfl, rfl, ?_⟩
    intro j hj
    omega
  | n + 1, i, va, h => by
    have hfirst : getByte p i = userByte page va := h 0 (Nat.zero_lt_succ n)
    have hcons : ∀ m, userBytes page va (m + 1) = userByte page va :: userBytes page (va + 1) m := by
      intro m
      rw [Nat.add_comm m 1, userBytes_add]
      rfl
    unfold copyStr
    by_cases h0 : getByte p i = 0
    · rw [if_pos h0]
      refine Or.inl ⟨rfl, 0, Nat.zero_lt_succ n, ?_, ?_, ?_⟩
      · rw [hcons, ← hfirst, h0]
        rfl
      · rw [Nat.add_zero, ← hfirst, h0]
      · intro j hj
        omega
    · rw [if_neg h0]
      have hnz : userByte page va ≠ 0 := by
        rw [← hfirst]
        exact h0
      -- the bytes before a position, from the first one and those after it
      have hbefore : ∀ m, (∀ j, j < m → userByte page (va + 1 + j) ≠ 0) →
          ∀ j, j < m + 1 → userByte page (va + j) ≠ 0 := by
        intro m hm j hj
        cases j with
        | zero => exact hnz
        | succ j =>
          rw [Nat.add_comm j 1, ← Nat.add_assoc]
          exact hm j (by omega)
      have hrest : ∀ j, j < n → getByte p (i + 1 + j) = userByte page (va + 1 + j) := by
        intro j hj
        rw [Nat.add_assoc, Nat.add_assoc, Nat.add_comm 1 j]
        exact h (j + 1) (by omega)
      rcases copyStr_spec n hrest with ⟨hok, k, hk, hbytes, hnul, hlt⟩ | ⟨hok, hbytes, hlt⟩
      · refine Or.inl ⟨hok, k + 1, by omega, ?_, ?_, hbefore k hlt⟩
        · rw [hcons, ← hfirst, ← hbytes]
        · rw [Nat.add_comm k 1, ← Nat.add_assoc]
          exact hnul
      · refine Or.inr ⟨hok, ?_, hbefore n hlt⟩
        rw [hcons, ← hfirst, ← hbytes]

theorem StrRead.none (h : max = 0 ∨ ¬ Accessible false leaf (va / PGSIZE)) :
    StrRead page leaf va max (false, []) := by
  refine ⟨?_, ?_, Nat.zero_le _⟩
  · intro hc
    cases hc
  · intro _ k hk hall
    rcases h with h0 | hno
    · omega
    · exact absurd (hall 0 (Nat.zero_le k)) hno

/-- The NUL is on the first page. -/
theorem StrRead.first {k : Nat} (ha : Accessible false leaf (va / PGSIZE)) (hk : k < onPage va max)
    (hnul : userByte page (va + k) = 0) (hlt : ∀ j, j < k → userByte page (va + j) ≠ 0) :
    StrRead page leaf va max (true, userBytes page va (k + 1)) := by
  have hmax : onPage va max ≤ max := Nat.min_le_right _ _
  refine ⟨fun _ => ⟨k, by omega, rfl, ?_, hnul, hlt⟩, ?_, ?_⟩
  · intro i hi
    rw [page_of_lt (Nat.lt_of_le_of_lt hi hk)]
    exact ha
  · intro hc
    cases hc
  · rw [length_userBytes]
    omega

/-- It is not, and the loop goes on with the next page. -/
theorem StrRead.next {res : Bool × List Nat} (ha : Accessible false leaf (va / PGSIZE))
    (hlt : ∀ j, j < onPage va max → userByte page (va + j) ≠ 0)
    (h : StrRead page leaf (PGROUNDDOWN va + PGSIZE) (max - onPage va max) res) :
    StrRead page leaf va max (res.1, userBytes page va (onPage va max) ++ res.2) := by
  have hmax : onPage va max ≤ max := Nat.min_le_right _ _
  refine ⟨?_, ?_, ?_⟩
  · intro hok
    obtain ⟨k, hk, hbytes, hacc, hnul, hbefore⟩ := h.found hok
    have hrest : 0 < max - onPage va max := by omega
    rw [next_page hrest] at hbytes hnul hacc hbefore
    refine ⟨onPage va max + k, by omega, ?_, ?_, ?_, ?_⟩
    · rw [hbytes, Nat.add_assoc, userBytes_add page va (onPage va max) (k + 1)]
    · intro i hi
      rcases Nat.lt_or_ge i (onPage va max) with hi' | hi'
      · rw [page_of_lt hi']
        exact ha
      · have := hacc (i - onPage va max) (by omega)
        rw [Nat.add_assoc, Nat.add_sub_cancel' hi'] at this
        exact this
    · rw [← Nat.add_assoc]
      exact hnul
    · intro i hi
      rcases Nat.lt_or_ge i (onPage va max) with hi' | hi'
      · exact hlt i hi'
      · have := hbefore (i - onPage va max) (by omega)
        rw [Nat.add_assoc, Nat.add_sub_cancel' hi'] at this
        exact this
  · intro hok k hk hacc
    rcases Nat.lt_or_ge k (onPage va max) with hk' | hk'
    · exact hlt k hk'
    · have hrest : 0 < max - onPage va max := by omega
      have hmiss := h.missed hok (k - onPage va max) (by omega)
      rw [next_page hrest, Nat.add_assoc, Nat.add_sub_cancel' hk'] at hmiss
      refine hmiss fun i hi => ?_
      rw [Nat.add_assoc]
      exact hacc _ (by omega)
  · rw [List.length_append, length_userBytes]
    have := h.bound
    omega

theorem wp_copyinstrLoop (h : Mem s r T H sz guard tramp tf) : ∀ (fuel : Nat) {va max : Nat},
    max ≤ fuel → wp Crit.total (fun res t => t = s ∧ StrRead (seen s T) T.leaf va max res)
      (copyinstrLoop r fuel va max) s
  | 0, va, max, hle => ⟨rfl, StrRead.none (Or.inl (by omega))⟩
  | fuel + 1, va, max, hle => by
    unfold copyinstrLoop
    rcases Nat.eq_zero_or_pos max with h0 | hpos
    · rw [if_pos h0]
      exact ⟨rfl, StrRead.none (Or.inl h0)⟩
    rw [if_neg (by omega), wp_bind]
    refine wp_walkaddr h.holds.rep ?_ ?_
    · intro hno
      refine ⟨rfl, StrRead.none (Or.inr ?_)⟩
      rintro ⟨hv, hV, hU, -⟩
      exact hno ⟨user_lt_MAXVA hv, hV, hU⟩
    · intro _ hV hU
      have hv : va / PGSIZE < UPAGES := by
        by_contra hge
        rw [h.space.highNoUser _ (by omega)] at hU
        cases hU
      have ha : Accessible false T.leaf (va / PGSIZE) := ⟨hv, hV, hU, fun hc => by cases hc⟩
      simp only [wp_bind, wp_look, sub_PGROUNDDOWN]
      refine ⟨trivial, ?_⟩
      have hbytes : ∀ j, j < onPage va max → getByte (s.mem (PTE2PA (T.leaf (va / PGSIZE))))
          (va % PGSIZE + j) = userByte (seen s T) (va + j) := by
        intro j hj
        unfold userByte
        rw [page_of_lt hj, seen_valid hv hV]
        congr 1
        unfold onPage at hj
        simp only [PGSIZE] at *
        omega
      have hon : 0 < onPage va max := by
        unfold onPage
        simp only [PGSIZE]
        omega
      rw [show min (PGSIZE - va % PGSIZE) max = onPage va max from rfl]
      rcases copyStr_spec (onPage va max) hbytes with ⟨hok, k, hk, hstr, hnul, hlt⟩ | ⟨hok, hstr, hlt⟩
      · rw [if_pos hok, hstr]
        exact ⟨rfl, StrRead.first ha hk hnul hlt⟩
      · rw [if_neg (by rw [hok]; exact Bool.false_ne_true), wp_bind, hstr]
        have hle' : max - onPage va max ≤ fuel := by omega
        refine wp_mono (wp_copyinstrLoop h fuel hle') ?_
        rintro res t ⟨rfl, hres⟩
        exact ⟨rfl, StrRead.next ha hlt hres⟩

/-! ## Beside `copyin` -/

/-- `copyin` of `k + 1` bytes would succeed with `bytes`, of which the last is a NUL. -/
def CopyinStr (s : Mach) (r sz srcva k : Nat) (bytes : List Nat) : Prop :=
  (∃ t, (copyinBytes r sz r srcva (k + 1)).run s = .done (true, bytes) t) ∧
    bytes.getLast? = some 0

/-- `copyinstr` reads strings like other user memory. -/
def LikeCopyin (s : Mach) (r sz srcva max : Nat) : Prop :=
  ∃ ok dst t, (copyinstr r srcva max).run s = .done (ok, dst) t ∧
    (ok = true ↔ ∃ k, k < max ∧ ∃ bytes, CopyinStr s r sz srcva k bytes) ∧
    (ok = true → ∃ k, k < max ∧ CopyinStr s r sz srcva k dst ∧ 0 ∉ dst.dropLast) ∧
    (ok = false → dst.length ≤ max)

/-- No page that is still to be allocated is met before a NUL. -/
def NoLazyStop (sz : Nat) (leaf : Nat → Nat) (page : Nat → Nat × (Nat → Nat)) (srcva max : Nat) :
    Prop :=
  ∀ n, n < max → (∀ i, i < n → Accessible false leaf ((srcva + i) / PGSIZE) ∧
      userByte page (srcva + i) ≠ 0) →
    ¬ (leaf ((srcva + n) / PGSIZE) = 0 ∧ (srcva + n) / PGSIZE < npages sz)

theorem getLast_userBytes (page : Nat → Nat × (Nat → Nat)) (va k : Nat) :
    (userBytes page va (k + 1)).getLast? = some (userByte page (va + k)) := by
  rw [userBytes_add]
  simp [userBytes]

theorem not_mem_dropLast {k : Nat} (h : ∀ i, i < k → userByte page (va + i) ≠ 0) :
    0 ∉ (userBytes page va (k + 1)).dropLast := by
  rw [userBytes_add, show userBytes page (va + k) 1 = [userByte page (va + k)] from rfl,
    List.dropLast_concat]
  intro hc
  obtain ⟨i, hi, h0⟩ := List.mem_map.mp hc
  exact h i (List.mem_range.mp hi) h0

/-- A `copyin` for which there is memory succeeds exactly on pages that are there or can be
    allocated. -/
theorem copyinStr_iff (h : Mem s r T H sz guard tramp tf) {srcva k : Nat} {bytes : List Nat}
    (hG : Always Granted (copyinBytes r sz r srcva (k + 1)) s) :
    CopyinStr s r sz srcva k bytes ↔ bytes = userBytes (seen s T) srcva (k + 1) ∧
      (∀ i, i ≤ k → Allocatable false sz T.leaf ((srcva + i) / PGSIZE)) ∧
      userByte (seen s T) (srcva + k) = 0 := by
  have hwp : wp Crit.total _ (copyinBytes r sz r srcva (k + 1)) s :=
    wp_copyinBytesLoop_exact (k + 1) h (le_refl _)
  obtain ⟨⟨ok, out⟩, t, hrun, T', -, -, -, htr, hout⟩ := wp_run_total hwp
  have hok : (∀ i, i ≤ k → Allocatable false sz T.leaf ((srcva + i) / PGSIZE)) → ok = true := by
    intro hall
    obtain ⟨res, t', hrun', -, -, -, hres⟩ := given_run (granted_copyinBytes h) hG
    rw [hrun] at hrun'
    injection hrun' with heq _
    have hfst : ok = res.1 := congrArg Prod.fst heq
    rw [hfst, hres]
    exact copyinSeen_true (k + 1) fun i hi => (h.inside (hall i (by omega))).1
  have hlen : ok = true → out = userBytes (seen s T) srcva (k + 1) := by
    intro hc
    have hm : out.length = k + 1 := htr.all.mp hc
    rw [hm] at hout
    exact hout
  unfold CopyinStr
  rw [hrun]
  constructor
  · rintro ⟨⟨t', hdone⟩, hlast⟩
    cases hdone
    have hbytes := hlen rfl
    refine ⟨hbytes, fun i hi => htr.allocatable (by omega), ?_⟩
    rw [hbytes, getLast_userBytes] at hlast
    exact Option.some.inj hlast
  · rintro ⟨hbytes, hall, hnul⟩
    have htrue := hok hall
    rw [htrue, hlen htrue, hbytes]
    refine ⟨⟨t, rfl⟩, ?_⟩
    rw [getLast_userBytes, hnul]

theorem userByte_fresh {a : Nat} (h0 : T.leaf (a / PGSIZE) = 0) : userByte (seen s T) a = 0 := by
  unfold userByte
  rw [seen_invalid (by rw [h0]; exact Nat.zero_testBit 0)]
  show 0 / _ % 256 = 0
  rw [Nat.zero_div]

/-- Up to the first NUL every page can be had only if it is there already. -/
theorem NoLazyStop.accessible {srcva j : Nat} (hno : NoLazyStop sz leaf page srcva max)
    (hj : j < max) (hall : ∀ i, i ≤ j → Allocatable false sz leaf ((srcva + i) / PGSIZE))
    (hlt : ∀ i, i < j → userByte page (srcva + i) ≠ 0) :
    ∀ i, i ≤ j → Accessible false leaf ((srcva + i) / PGSIZE) := by
  intro i
  induction i using Nat.strong_induction_on with
  | _ i ih =>
    intro hi
    rcases hall i hi with ha | hlazy
    · exact ha
    · refine absurd hlazy (hno i (by omega) ?_)
      intro m hm
      exact ⟨ih m hm (by omega), hlt m (by omega)⟩

end strings

/-- `copyin` reads a NUL at address 12288, and there is memory for it; `copyinstr` fails. -/
def lazyPage (s : Mach) (r sz : Nat) : Bool :=
  (((copyinBytes r sz r 12288 1).result s).any fun res => decide (res.1 = (true, [0]))) &&
    ((copyinBytes r sz r 12288 0).checks (fun s => s.kalloc.1.isSome) s &&
      (copyinBytes r sz r 12288 1).checks (fun s => s.kalloc.1.isSome) s) &&
    ((copyinstr r 12288 1).result s).any fun res => !res.1.1

theorem lazyPage_spec : ∃ k k1 r, smallBoot.init smallImage = some k ∧ Reach smallBoot k1 ∧
    k1.CanRun 0 ∧ (Op.prog 0 (.sbrk 4096 false)).run k = .done () k1 ∧
    (k1.proc 0).pagetable = some r ∧ lazyPage k1.mach r (k1.proc 0).sz = true := by
  obtain ⟨k, k1, hk, hdoes, hk1, hreach, hc, -⟩ := smallLazy_spec
  have hrun : smallLazy.any (fun k => (k.proc 0).pagetable.any fun r =>
      lazyPage k.mach r (k.proc 0).sz) = true := by
    decide +kernel
  rw [hk1, Option.any_some] at hrun
  obtain ⟨r, hpt, hpage⟩ := (Option.any_eq_true _ _).mp hrun
  exact ⟨k, k1, r, hk, hreach, hc, (run_of_does hdoes).2, hpt, hpage⟩

section strings

variable {r sz tramp tf : Nat} {s : Mach} {T : Tree} {H : Multiset Nat} {guard : Option Nat}

/-- With memory for every page, `copyinstr` agrees with `copyin` exactly where it meets no page
    that is still to be allocated before a NUL. -/
theorem copyinstr_like_copyin (h : Mem s r T H sz guard tramp tf) (srcva max : Nat)
    (hG : ∀ len, len ≤ max → Always Granted (copyinBytes r sz r srcva len) s) :
    LikeCopyin s r sz srcva max ↔ NoLazyStop sz T.leaf (seen s T) srcva max := by
  have hwp : wp Crit.total _ (copyinstr r srcva max) s := wp_copyinstrLoop h max (le_refl max)
  obtain ⟨⟨ok, dst⟩, t, hrun, -, hread⟩ := wp_run_total hwp
  have hiff : ∀ k bytes, k < max → (CopyinStr s r sz srcva k bytes ↔
      bytes = userBytes (seen s T) srcva (k + 1) ∧
      (∀ i, i ≤ k → Allocatable false sz T.leaf ((srcva + i) / PGSIZE)) ∧
      userByte (seen s T) (srcva + k) = 0) := by
    intro k bytes hk
    exact copyinStr_iff h (hG (k + 1) hk)
  constructor
  · rintro ⟨ok', dst', t', hrun', hok, -⟩ n hn hbefore ⟨h0, hlt⟩
    rw [hrun] at hrun'
    cases hrun'
    -- `copyin` up to the fresh page finds its NUL there
    have htrue : ok = true := by
      refine hok.mpr ⟨n, hn, _, (hiff n _ hn).mpr ⟨rfl, ?_, userByte_fresh h0⟩⟩
      intro i hi
      rcases Nat.lt_or_ge i n with hi' | hi'
      · exact Or.inl (hbefore i hi').1
      · rw [show i = n by omega]
        exact Or.inr ⟨h0, hlt⟩
    obtain ⟨k, -, -, hacc, hnul, -⟩ := hread.found htrue
    rcases Nat.lt_or_ge k n with hk | hk
    · exact (hbefore k hk).2 hnul
    · have hV := (hacc n hk).2.1
      rw [h0] at hV
      cases hV
  · intro hno
    refine ⟨ok, dst, t, hrun, ⟨?_, ?_⟩, ?_, fun _ => hread.bound⟩
    · intro htrue
      obtain ⟨k, hk, hbytes, hacc, hnul, -⟩ := hread.found htrue
      exact ⟨k, hk, dst, (hiff k dst hk).mpr ⟨hbytes, fun i hi => Or.inl (hacc i hi), hnul⟩⟩
    · rintro ⟨k, hk, bytes, hstr⟩
      obtain ⟨-, hall, hnul⟩ := (hiff k bytes hk).mp hstr
      -- the first NUL
      have hex : ∃ j, userByte (seen s T) (srcva + j) = 0 := ⟨k, hnul⟩
      obtain ⟨j, hj, hmin⟩ : ∃ j, userByte (seen s T) (srcva + j) = 0 ∧
          ∀ i, i < j → userByte (seen s T) (srcva + i) ≠ 0 :=
        ⟨Nat.find hex, Nat.find_spec hex, fun i hi => Nat.find_min hex hi⟩
      have hjk : j ≤ k := by
        by_contra hlt
        exact hmin k (by omega) hnul
      have hacc := hno.accessible (by omega) (fun i hi => hall i (by omega)) hmin
      cases hok : ok with
      | true => rfl
      | false => exact absurd hj (hread.missed hok j (by omega) hacc)
    · intro htrue
      obtain ⟨k, hk, hbytes, hacc, hnul, hlt⟩ := hread.found htrue
      have hbytes : dst = userBytes (seen s T) srcva (k + 1) := hbytes
      refine ⟨k, hk, (hiff k dst hk).mpr ⟨hbytes, fun i hi => Or.inl (hacc i hi), hnul⟩, ?_⟩
      rw [hbytes]
      exact not_mem_dropLast hlt

end strings

/-- A fresh page at address 12288: `copyin` reads a NUL there, `copyinstr` fails. -/
theorem copyinstr_lazy_page : ∃ k k1 r, smallBoot.init smallImage = some k ∧ Reach smallBoot k1 ∧
    k1.CanRun 0 ∧ (Op.prog 0 (.sbrk 4096 false)).run k = .done () k1 ∧
    (k1.proc 0).pagetable = some r ∧ ¬ LikeCopyin k1.mach r (k1.proc 0).sz 12288 1 := by
  obtain ⟨k, k1, r, hk, hreach, hc, hsbrk, hpt, hpage⟩ := lazyPage_spec
  refine ⟨k, k1, r, hk, hreach, hc, hsbrk, hpt, ?_⟩
  obtain ⟨hrest, hstr⟩ := Bool.and_eq_true_iff.mp hpage
  obtain ⟨hin, -⟩ := Bool.and_eq_true_iff.mp hrest
  obtain ⟨⟨_, t⟩, hin, hres⟩ := (Option.any_eq_true _ _).mp hin
  obtain ⟨⟨⟨ok, dst⟩, u⟩, hstr, hno⟩ := (Option.any_eq_true _ _).mp hstr
  cases of_decide_eq_true hres
  rintro ⟨ok', dst', t', hdone, hok, -⟩
  have htrue : ok' = true := hok.mpr ⟨0, Nat.zero_lt_one, [0], ⟨t, run_of_result hin⟩, rfl⟩
  rw [run_of_result hstr, htrue] at hdone
  cases hdone
  cases hno

/-- The same state, where the page at address 12288 is still to be allocated. -/
theorem copyinstr_like_copyin_small : ∃ s r T H sz guard tramp tf,
    Mem s r T H sz guard tramp tf ∧
    (∀ len, len ≤ 1 → Always Granted (copyinBytes r sz r 12288 len) s) ∧
    (LikeCopyin s r sz 12288 1 ↔ NoLazyStop sz T.leaf (seen s T) 12288 1) := by
  obtain ⟨k, k1, r, -, hreach, hc, -, hpt, hpage⟩ := lazyPage_spec
  obtain ⟨hrest, -⟩ := Bool.and_eq_true_iff.mp hpage
  obtain ⟨-, hchecks⟩ := Bool.and_eq_true_iff.mp hrest
  obtain ⟨h0, h1⟩ := Bool.and_eq_true_iff.mp hchecks
  obtain ⟨r', tf, T, hpt', -, -, hsp, hh⟩ := (hreach.inv smallBoot_boot).live hc
  have hr : r' = r := Option.some.inj (hpt'.symm.trans hpt)
  rw [hr] at hh
  have hgranted : ∀ (β : Type) (f : Mach → Outcome VmPanic Mach β) (s : Mach),
      s.kalloc.1.isSome = true → Granted β f s := by
    intro β f s hs _
    exact Option.isSome_iff_ne_none.mp hs
  have hG : ∀ len, len ≤ 1 →
      Always Granted (copyinBytes r (k1.proc 0).sz r 12288 len) k1.mach := by
    intro len hlen
    rcases Nat.le_one_iff_eq_zero_or_eq_one.mp hlen with rfl | rfl
    · exact always_of_checks hgranted h0
    · exact always_of_checks hgranted h1
  have hmem := Mem.mk hh hsp
  exact ⟨_, r, T, _, _, _, _, tf, hmem, hG, copyinstr_like_copyin hmem 12288 1 hG⟩

end Xv6
