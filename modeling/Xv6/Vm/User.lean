/-
  Copying, protecting and faulting in user pages: `uvmcopy`, `uvmclear`, `vmfault`, `copyout` and
  `copyin`, in the form of `Xv6.Vm.Uvm`.

  The copies walk page by page and may fault pages in.  `Faulted` says what that can do to the
  entries: pages below the size that had no entry may get one, and nothing else changes.
-/
import Xv6.Vm.Free
import Mathlib.Tactic.Push

namespace Xv6

open Function Multiset
open Lib.Prog hiding update

section user

variable {r : Nat} {s t : Mach} {T T' : Tree} {H H' : Multiset Nat}

/-! ## `uvmcopy` -/

/-- Another page table, in frames that are not involved, stays as it is. -/
theorem Goes.rep_other {old : Nat} {To : Tree} (g : Goes r s T H t T' H') (ho : Rep s.mem old To)
    (hd : ∀ f ∈ old ::ₘ To.nodes, f ∉ Foot r T s.freelist + H) : Rep t.mem old To := by
  refine ho.congr ?_
  intro f hf
  exact g.mem f (hd f hf)

/-- The entries of `n` pages from page `a` on are copies of those in `src`, on other frames. -/
structure Copied (src leaf leaf' : Nat → Nat) (a n : Nat) : Prop where
  valid : ∀ v, a ≤ v → v < a + n → (src v).testBit 0 →
    ∃ pa, pa % 4096 = 0 ∧ leaf' v = leafPte pa (PTE_FLAGS (src v))
  invalid : ∀ v, a ≤ v → v < a + n → (src v).testBit 0 = false → leaf' v = 0
  other : ∀ v, v < a ∨ a + n ≤ v → leaf' v = leaf v

/-- The copies have the contents of the originals. -/
def SameData (s : Mach) (src : Nat → Nat) (t : Mach) (leaf : Nat → Nat) (a n : Nat) : Prop :=
  ∀ v, a ≤ v → v < a + n → (src v).testBit 0 → t.mem (PTE2PA (leaf v)) = s.mem (PTE2PA (src v))

theorem PTE_FLAGS_lt (pte : Nat) : PTE_FLAGS pte < 1024 := Nat.mod_lt _ (by decide)

/-- What the first `n` rounds of `uvmcopy` have done. -/
structure Copies (r : Nat) (s : Mach) (T : Tree) (H : Multiset Nat) (src : Nat → Nat) (n : Nat)
    (t : Mach) (T' : Tree) : Prop where
  goes : Goes r s T H t T' H
  copied : Copied src T.leaf T'.leaf 0 n
  same : SameData s src t T'.leaf 0 n

theorem Copies.refl (h : Holds s r T H) (src : Nat → Nat) : Copies r s T H src 0 s T := by
  refine ⟨Goes.refl h, ⟨?_, ?_, fun _ _ => rfl⟩, ?_⟩
  · intro v h1 h2
    omega
  · intro v h1 h2
    omega
  · intro v h1 h2
    omega

/-- One more page: a copy, or no entry where there is none in `src`. -/
theorem Copies.round {src : Nat → Nat} {n : Nat} {u : Mach} {T'' : Tree}
    (f : Copies r s T H src n t T') (hn : n ≤ UPAGES) (g : Goes r t T' H u T'' H)
    (hother : ∀ v, v ≠ n → T''.leaf v = T'.leaf v) (hk : Keeps T'.pages t u)
    (hvalid : (src n).testBit 0 → ∃ pa, pa % 4096 = 0 ∧ T''.leaf n = leafPte pa (PTE_FLAGS (src n)) ∧
      u.mem (PTE2PA (T''.leaf n)) = s.mem (PTE2PA (src n)))
    (hinvalid : (src n).testBit 0 = false → T''.leaf n = 0) : Copies r s T H src (n + 1) u T'' := by
  refine ⟨f.goes.trans g, ⟨?_, ?_, ?_⟩, ?_⟩
  · intro v h1 h2 hV
    rcases eq_or_ne v n with rfl | hne
    · obtain ⟨pa, hpa, hl, -⟩ := hvalid hV
      exact ⟨pa, hpa, hl⟩
    · rw [hother v hne]
      exact f.copied.valid v h1 (by omega) hV
  · intro v h1 h2 hV
    rcases eq_or_ne v n with rfl | hne
    · exact hinvalid hV
    · rw [hother v hne]
      exact f.copied.invalid v h1 (by omega) hV
  · intro v hv
    rw [hother v (by omega)]
    exact f.copied.other v (by omega)
  · intro v h1 h2 hV
    rcases eq_or_ne v n with rfl | hne
    · obtain ⟨pa, -, -, hdata⟩ := hvalid hV
      exact hdata
    · -- the pages of the rounds before are user pages of the child
      have hpage : PTE2PA (T'.leaf v) ∈ T'.pages := by
        obtain ⟨pa, -, hl⟩ := f.copied.valid v h1 (by omega) hV
        refine mem_pages (by omega) ?_
        rw [hl]
        exact leafPte_valid _ _
      rw [hother v hne, hk _ hpage]
      exact f.same v h1 (by omega) hV

theorem wp_uvmcopyLoop {Q : Bool → Mach → Prop} {old N : Nat} {To : Tree} (h : Holds s r T H)
    (ho : Rep s.mem old To) (hd : ∀ f ∈ Own old To, f ∉ Foot r T s.freelist + H) (hN : N ≤ UPAGES)
    (hzero : ∀ v, v < N → T.leaf v = 0)
    (hn : ∀ t T', Goes r s T H t T' H → T'.leaf = T.leaf → Q false t)
    (hs : ∀ t T', Copies r s T H To.leaf N t T' → Q true t) :
    ∀ (n : Nat) {k : Nat} {t : Mach} {T' : Tree}, k + n = N → Copies r s T H To.leaf k t T' →
      wp Crit.total Q (uvmcopyLoop old r n (k * PGSIZE)) t
  | 0, k, t, T', hk, f => by
    obtain rfl : k = N := hk
    exact hs t T' f
  | n + 1, k, t, T', hk, f => by
    have ht := h.goes f.goes
    have hot : Rep t.mem old To := f.goes.rep_other ho fun g hg => hd g (tree_mem_own hg)
    have hU : k < UPAGES := by omega
    have hfree : T'.leaf k = 0 := by
      rw [f.copied.other k (by omega)]
      exact hzero k (by omega)
    have hnext : ∀ {u T''}, Copies r s T H To.leaf (k + 1) u T'' →
        wp Crit.total Q (uvmcopyLoop old r n (k * PGSIZE + PGSIZE)) u := by
      intro u T'' f'
      rw [← Nat.succ_mul]
      exact wp_uvmcopyLoop h ho hd hN hzero hn hs n (by omega) f'
    have hskip : (To.leaf k).testBit 0 = false →
        wp Crit.total Q (uvmcopyLoop old r n (k * PGSIZE + PGSIZE)) t := by
      intro hV
      refine hnext (f.round hU.le (Goes.refl ht) (fun _ _ => rfl) (Keeps.refl _ _) ?_ fun _ => hfree)
      intro hV'
      rw [hV] at hV'
      cases hV'
    unfold uvmcopyLoop
    rw [wp_bind]
    refine wp_walk_false hot (user_lt_MAXVA hU) ?_
    cases hp : To.slot k with
    | none =>
      refine hskip ?_
      rw [hot.leaf_of_slot_none hp]
      exact Nat.zero_testBit 0
    | some p =>
      simp only [wp_bind]
      refine wp_load _ ?_
      rw [hot.load_slot hp]
      cases hV : (To.leaf k).testBit 0 with
      | false =>
        exact hskip hV
      | true =>
        refine wp_mapNew (F := fun m => m = s.mem (PTE2PA (To.leaf k))) ht hU hfree (PTE_FLAGS_lt _)
          ?_ ?_ ?_
        · intro x u g hu Q' hQ'
          have hx := mem_cons_self x H
          refine ⟨trivial, hQ' _ (Goes.scribble hu (hu.held_not_tree hx)
            (mem_add.mpr (Or.inr hx)) (u.mem (PTE2PA (To.leaf k)))) ?_
            (Keeps.write hu.held_not_kept _)⟩
          rw [setPage_self]
          refine (f.goes.trans g).mem _ (hd _ (mem_cons_of_mem (mem_add.mpr (Or.inr ?_))))
          exact mem_pages hU hV
        · -- the cleanup of both error paths
          intro u T'' g hleaf _
          rw [wp_bind, Nat.mul_div_cancel _ (by decide)]
          refine wp_uvmunmap (a := 0) (ht.goes g) (user_le_MAXVA (by omega)) ?_ ?_
          · intro v _ hv
            show v < UPAGES
            omega
          · intro w T₁ g' hleaf' _ _
            refine hn w T₁ (f.goes.trans (g.trans g')) ?_
            rw [hleaf', hleaf]
            exact clearRange_restores (fun v _ hv => hzero v (by omega)) f.copied.other
        · intro x u T'' hxal g hleaf hk' hdata
          refine hnext (f.round hU.le g ?_ (hk'.mono (subset_of_le (le_add_right _ _))) ?_ ?_)
          · intro v hv
            rw [hleaf, update_of_ne hv]
          · intro _
            rw [hleaf, update_self, PTE2PA_leafPte hxal (PTE_FLAGS_lt _)]
            exact ⟨x, hxal, rfl, hdata⟩
          · intro hc
            rw [hV] at hc
            cases hc

variable {sz v : Nat}

/-- `uvmcopy` into a page table that maps no user page yet. -/
theorem wp_uvmcopy {Q : Bool → Mach → Prop} {old : Nat} {To : Tree} (h : Holds s r T H)
    (ho : Rep s.mem old To) (hd : ∀ f ∈ Own old To, f ∉ Foot r T s.freelist + H)
    (hsz : npages sz ≤ UPAGES) (hzero : ∀ v, v < npages sz → T.leaf v = 0)
    (hn : ∀ t T', Goes r s T H t T' H → T'.leaf = T.leaf → Q false t)
    (hs : ∀ t T', Copies r s T H To.leaf (npages sz) t T' → Q true t) :
    wp Crit.total Q (uvmcopy old r sz) s := by
  have hw := wp_uvmcopyLoop h ho hd hsz hzero hn hs (npages sz) (Nat.zero_add _)
    (Copies.refl h To.leaf)
  exact hw

/-! ## `uvmclear` -/

/-- An entry without its user bit. -/
def noUser (pte : Nat) : Nat := pte ^^^ (pte &&& PTE_U)

theorem noUser_testBit (pte i : Nat) : (noUser pte).testBit i = (pte.testBit i && i != 4) := by
  unfold noUser
  rw [Nat.testBit_xor, Nat.testBit_and, show PTE_U = 2 ^ 4 from rfl, Nat.testBit_two_pow]
  rcases eq_or_ne i 4 with hi | hi
  · rw [hi]
    simp
  · simp [hi, Ne.symm hi]

theorem PTE2PA_noUser (pte : Nat) : PTE2PA (noUser pte) = PTE2PA pte := by
  unfold PTE2PA
  congr 1
  refine Nat.eq_of_testBit_eq ?_
  intro i
  rw [show 1024 = 2 ^ 10 from rfl, Nat.testBit_div_two_pow, Nat.testBit_div_two_pow,
    noUser_testBit]
  simp

theorem leafFrame_noUser (pte : Nat) : leafFrame (noUser pte) = leafFrame pte := by
  unfold leafFrame
  rw [PTE2PA_noUser, noUser_testBit]
  simp

theorem wp_uvmclear {Q : Unit → Mach → Prop} (h : Holds s r T H) (hv : v < UPAGES)
    (hV : (T.leaf v).testBit 0) (hQ : ∀ t T', Goes r s T H t T' H →
      T'.leaf = update T.leaf v (noUser (T.leaf v)) → Q () t) :
    wp Crit.total Q (uvmclear r (v * PGSIZE)) s := by
  unfold uvmclear
  rw [wp_bind]
  refine wp_walk_valid h.rep (user_lt_MAXVA hv) hV fun p hp => ?_
  simp only [wp_bind]
  refine wp_load _ ?_
  rw [h.rep.load_slot hp]
  obtain ⟨q, hq, rfl⟩ := Option.map_eq_some_iff.mp hp
  show wp Crit.total Q (store ⟨q, v % 512⟩ (noUser (T.leaf v))) s
  refine wp_store _ _ (hQ _ (T.setLeaf v (noUser (T.leaf v))) ?_ rfl)
  refine Goes.setLeaf h hq ?_ ?_
  · intro hc
    rw [noUser_testBit, hV] at hc
    cases hc
  · rw [ownFrame_user hv, ownFrame_user hv, leafFrame_noUser]

/-! ## `vmfault` -/

theorem wp_ismapped {Q : Bool → Mach → Prop} (h : Rep s.mem r T) (hv : v * PGSIZE < MAXVA)
    (hQ : Q ((T.leaf v).testBit 0) s) : wp Crit.total Q (ismapped r (v * PGSIZE)) s := by
  unfold ismapped
  rw [wp_bind]
  refine wp_walk_false h hv ?_
  cases hp : T.slot v with
  | none =>
    rw [h.leaf_of_slot_none hp] at hQ
    exact hQ
  | some p =>
    rw [wp_bind]
    refine wp_load _ ?_
    rw [h.load_slot hp]
    exact hQ

/-- The permissions of a page that was faulted in. -/
abbrev faultPerm : Nat := PTE_W ||| PTE_U ||| PTE_R

variable {Q : Option Nat → Mach → Prop}

/-- `vmfault` in the process's own page table: it maps a zeroed page at `va`, does nothing where
    `va` is mapped or above the size, or runs out of memory and changes no entry. -/
theorem wp_vmfault {va : Nat} (h : Holds s r T H)
    (hsz : npages sz ≤ UPAGES) (hno : sz ≤ va ∨ (T.leaf (va / PGSIZE)).testBit 0 → Q none s)
    (hn : ∀ t T', va < sz → T.leaf (va / PGSIZE) = 0 → Goes r s T H t T' H → T'.leaf = T.leaf →
      Keeps (T.pages + H) s t → Q none t)
    (hs : ∀ x t T', va / PGSIZE < npages sz → T.leaf (va / PGSIZE) = 0 → x % 4096 = 0 →
      Goes r s T H t T' H →
      T'.leaf = update T.leaf (va / PGSIZE) (leafPte x faultPerm) →
      Keeps (T.pages + H) s t → (∀ j, t.mem x j = 0) → Q (some x) t) :
    wp Crit.total Q (vmfault r sz r va) s := by
  unfold vmfault
  rcases Nat.lt_or_ge va sz with hlt | hge
  · have hpg := lt_npages hlt
    have hU : va / PGSIZE < UPAGES := by omega
    rw [if_neg (by omega), wp_bind]
    refine wp_ismapped h.rep (user_lt_MAXVA hU) ?_
    cases hV : (T.leaf (va / PGSIZE)).testBit 0 with
    | true =>
      exact hno (Or.inr hV)
    | false =>
      have h0 := h.rep.leaf_zero _ hV
      refine wp_mapNew (F := fun m => ∀ j, m j = 0) h hU h0 (by decide)
        (fun x t _ ht _ => wp_memset_held ht) ?_ ?_
      · intro t T' g hleaf hk
        exact hn t T' hlt h0 g hleaf hk
      · intro x t T' hxal g hleaf hk hz
        exact hs x t T' hpg h0 hxal g hleaf hk hz
  · rw [if_pos hge]
    exact hno (Or.inl hge)

/-! ## `copyout` and `copyin` -/

/-- Some pages below the size `sz` that had no entry have been faulted in. -/
def Faulted (sz : Nat) (leaf leaf' : Nat → Nat) : Prop :=
  ∀ v, leaf' v = leaf v ∨
    leaf v = 0 ∧ v < npages sz ∧ ∃ x, x % 4096 = 0 ∧ leaf' v = leafPte x faultPerm

theorem Faulted.refl (sz : Nat) (leaf : Nat → Nat) : Faulted sz leaf leaf := fun _ => Or.inl rfl

theorem Faulted.trans {l l' l'' : Nat → Nat} (h : Faulted sz l l') (h' : Faulted sz l' l'') :
    Faulted sz l l'' := by
  intro v
  rcases h' v with h2 | ⟨h0, hlt, x, hx, h2⟩
  · rw [h2]
    exact h v
  · rcases h v with h1 | ⟨h0', hlt', y, hy, h1⟩
    · rw [h1] at h0
      exact Or.inr ⟨h0, hlt, x, hx, h2⟩
    · rw [h1] at h0
      have := leafPte_valid y faultPerm
      rw [h0] at this
      cases this

/-- No user access above the user pages. -/
def HighNoUser (leaf : Nat → Nat) : Prop := ∀ v, UPAGES ≤ v → (leaf v).testBit 4 = false

theorem HighNoUser.faulted {l l' : Nat → Nat} (h : HighNoUser l) (hsz : npages sz ≤ UPAGES)
    (hf : Faulted sz l l') : HighNoUser l' := by
  intro v hv
  rcases hf v with h1 | ⟨_, hlt, _⟩
  · rw [h1]
    exact h v hv
  · omega

theorem wp_walkaddr (h : Rep s.mem r T)
    (hn : ¬ (v * PGSIZE < MAXVA ∧ (T.leaf v).testBit 0 ∧ (T.leaf v).testBit 4) → Q none s)
    (hs : v * PGSIZE < MAXVA → (T.leaf v).testBit 0 → (T.leaf v).testBit 4 →
      Q (some (PTE2PA (T.leaf v))) s) : wp Crit.total Q (walkaddr r (v * PGSIZE)) s := by
  unfold walkaddr
  rcases Nat.lt_or_ge (v * PGSIZE) MAXVA with hlt | hge
  · rw [if_neg (by omega), wp_bind]
    refine wp_walk_false h hlt ?_
    cases hp : T.slot v with
    | none =>
      refine hn fun hc => ?_
      rw [h.leaf_of_slot_none hp] at hc
      exact Bool.false_ne_true hc.2.1
    | some p =>
      simp only [wp_bind]
      refine wp_load _ ?_
      rw [h.load_slot hp]
      cases hV : (T.leaf v).testBit 0 with
      | false =>
        refine hn fun hc => ?_
        rw [hV] at hc
        exact Bool.false_ne_true hc.2.1
      | true =>
        cases hU : (T.leaf v).testBit 4 with
        | false =>
          refine hn fun hc => ?_
          rw [hU] at hc
          exact Bool.false_ne_true hc.2.2
        | true =>
          exact hs hlt hV hU
  · rw [if_pos hge]
    exact hn fun hc => absurd hc.1 (Nat.not_lt.mpr hge)

/-- The page table of a process has got a zeroed page at `v`. -/
structure PageFaulted (r : Nat) (s : Mach) (T : Tree) (H : Multiset Nat) (sz v : Nat) (t : Mach)
    (T' : Tree) : Prop where
  goes : Goes r s T H t T' H
  below : v < npages sz
  was : T.leaf v = 0
  now : ∃ x, x % 4096 = 0 ∧ T'.leaf = update T.leaf v (leafPte x faultPerm)
  keeps : Keeps (T.pages + H) s t
  zeroed : ∀ j, t.mem (PTE2PA (T'.leaf v)) j = 0

theorem PageFaulted.leaf (f : PageFaulted r s T H sz v t T') :
    ∃ x, x % 4096 = 0 ∧ T'.leaf v = leafPte x faultPerm := by
  obtain ⟨x, hx, hl⟩ := f.now
  exact ⟨x, hx, by rw [hl, update_self]⟩

theorem PageFaulted.faulted (f : PageFaulted r s T H sz v t T') : Faulted sz T.leaf T'.leaf := by
  obtain ⟨x, hx, hl⟩ := f.now
  intro w
  rcases eq_or_ne w v with heq | hne
  · rw [heq]
    exact Or.inr ⟨f.was, f.below, f.leaf⟩
  · rw [hl, update_of_ne hne]
    exact Or.inl rfl

/-- The page behind an address is open to the user already, is faulted in, or is refused: because
    it is mapped for the kernel only, lies above the size, or there is no memory for it. -/
theorem wp_userPage (h : Holds s r T H) (hsz : npages sz ≤ UPAGES)
    (hU : HighNoUser T.leaf) (hhit : v < UPAGES → (T.leaf v).testBit 0 → (T.leaf v).testBit 4 →
      Q (some (PTE2PA (T.leaf v))) s) (hfault : ∀ t T', v < UPAGES → PageFaulted r s T H sz v t T' →
      Q (some (PTE2PA (T'.leaf v))) t)
    (hbad : ¬ ((T.leaf v).testBit 0 ∧ (T.leaf v).testBit 4 ∧ v < UPAGES) →
      (npages sz ≤ v ∨ (T.leaf v).testBit 0) → Q none s)
    (hmem : ∀ t T', v < npages sz → T.leaf v = 0 → Goes r s T H t T' H → T'.leaf = T.leaf →
      Keeps (T.pages + H) s t → Q none t) : wp Crit.total Q (userPage r sz r (v * PGSIZE)) s := by
  have hpage : v * PGSIZE / PGSIZE = v := Nat.mul_div_cancel _ (by decide)
  have hbelow : v * PGSIZE < sz → v < npages sz := by
    intro hlt
    have := lt_npages hlt
    rw [hpage] at this
    exact this
  unfold userPage
  rw [wp_bind]
  refine wp_walkaddr h.rep (fun hno => ?_) ?_
  · refine wp_vmfault h hsz ?_ ?_ ?_
    · rw [hpage]
      intro hor
      refine hbad (fun hc => hno ⟨user_lt_MAXVA hc.2.2, hc.1, hc.2.1⟩) (hor.imp ?_ id)
      intro hle
      rw [← npages_mul v]
      exact npages_mono hle
    · intro t T' hlt h0 g hleaf hk
      rw [hpage] at h0
      exact hmem t T' (hbelow hlt) h0 g hleaf hk
    · intro x t T' hlt h0 hx g hleaf hk hz
      rw [hpage] at hlt h0 hleaf
      have hpa : PTE2PA (T'.leaf v) = x := by
        rw [hleaf, update_self, PTE2PA_leafPte hx (by decide)]
      have hQ := hfault t T' (by omega) ⟨g, hlt, h0, ⟨x, hx, hleaf⟩, hk, by rw [hpa]; exact hz⟩
      rw [hpa] at hQ
      exact hQ
  · intro _ hV hUser
    have hv : v < UPAGES := by
      by_contra hge
      rw [hU v (by omega)] at hUser
      cases hUser
    exact hhit hv hV hUser

/-- The two ways to get the frame of a user page, in what they have in common. -/
theorem wp_userPage_any (h : Holds s r T H)
    (hsz : npages sz ≤ UPAGES) (hU : HighNoUser T.leaf)
    (hn : ∀ t T', Goes r s T H t T' H → T'.leaf = T.leaf → Q none t)
    (hs : ∀ pa t T', Goes r s T H t T' H → Faulted sz T.leaf T'.leaf → pa ∈ T'.pages →
      v < UPAGES → (T'.leaf v).testBit 0 → Q (some pa) t) :
    wp Crit.total Q (userPage r sz r (v * PGSIZE)) s := by
  refine wp_userPage h hsz hU ?_ ?_ ?_ ?_
  · intro hv hV _
    exact hs _ s T (Goes.refl h) (Faulted.refl _ _) (mem_pages hv hV) hv hV
  · intro t T' hv f
    obtain ⟨x, -, hl⟩ := f.leaf
    have hV : (T'.leaf v).testBit 0 := by
      rw [hl]
      exact leafPte_valid _ _
    exact hs _ t T' f.goes f.faulted (mem_pages hv hV) hv hV
  · intro _ _
    exact hn s T (Goes.refl h) rfl
  · intro t T' _ _ g hleaf _
    exact hn t T' g hleaf

/-- A mapped page is overwritten. -/
theorem Goes.writePage (h : Holds s r T H) {pa : Nat} (hpa : pa ∈ T.pages) (d : Nat → Nat) :
    Goes r s T H (s.setPage pa d) T H :=
  Goes.scribble h (h.page_not_tree hpa) (mem_add.mpr (Or.inl (mem_foot_page hpa))) d

variable {data : Nat → (Nat → Nat) → Nat → Nat}

theorem wp_copyoutLoop {sz : Nat}
    (hsz : npages sz ≤ UPAGES) :
    ∀ (fuel : Nat) {s : Mach} {T : Tree} {dstva len : Nat} {Q : Bool → Mach → Prop},
      Holds s r T H → HighNoUser T.leaf →
      (∀ b t T', Goes r s T H t T' H → Faulted sz T.leaf T'.leaf → Q b t) →
      wp Crit.total Q (copyoutLoop r sz r data fuel dstva len) s
  | 0, s, T, dstva, len, Q, h, _, hQ => hQ true s T (Goes.refl h) (Faulted.refl _ _)
  | fuel + 1, s, T, dstva, len, Q, h, hU, hQ => by
    have hret : ∀ b, Q b s := fun b => hQ b s T (Goes.refl h) (Faulted.refl _ _)
    unfold copyoutLoop
    rcases Nat.eq_zero_or_pos len with h0 | hpos
    · rw [if_pos h0]
      exact hret true
    rw [if_neg (by omega)]
    show wp Crit.total Q (if PGROUNDDOWN dstva ≥ MAXVA then pure false else _) s
    split
    · exact hret false
    rw [wp_bind]
    refine wp_userPage_any h hsz hU ?_ ?_
    · intro t T' g hleaf
      refine hQ false t T' g ?_
      rw [hleaf]
      exact Faulted.refl _ _
    · intro pa t T' g hf hpa hv hV
      have ht := h.goes g
      simp only [wp_bind]
      refine wp_walk_valid ht.rep (user_lt_MAXVA hv) hV fun p _ => ?_
      simp only [wp_bind]
      refine wp_load _ ?_
      split
      · exact hQ false t T' g hf
      · refine ⟨trivial, ?_⟩
        have g' := Goes.writePage ht hpa (data dstva (t.mem pa))
        refine wp_copyoutLoop hsz fuel (ht.goes g') (hU.faulted hsz hf) ?_
        intro b u T'' g'' hf'
        exact hQ b u T'' (g.trans (g'.trans g'')) (hf.trans hf')

theorem wp_copyout {Q : Bool → Mach → Prop} {dstva len : Nat}
    (h : Holds s r T H) (hsz : npages sz ≤ UPAGES) (hU : HighNoUser T.leaf)
    (hQ : ∀ b t T', Goes r s T H t T' H → Faulted sz T.leaf T'.leaf → Q b t) :
    wp Crit.total Q (copyout r sz r dstva len data) s :=
  wp_copyoutLoop hsz len h hU hQ

end user

end Xv6
