/-
  What a user program finds in its pages.

  `seen s T v` are the flags and the contents of virtual page `v`.  A page without an entry counts
  as one that `vmfault` would map now: readable, writable and zeroed.  So faulting a page in is not
  seen (`seen_fault`), nor is the growth of `uvmalloc` (`seen_grown`); shrinking makes the pages
  above the new size fresh (`seen_cleared`).
-/
import Xv6.Vm.User

namespace Xv6

open Function Multiset
open Lib.Prog hiding update

/-- Flags and contents of a page that nobody has written yet. -/
def freshPage : Nat × (Nat → Nat) := (faultPerm ||| PTE_V, fun _ => 0)

def seen (s : Mach) (T : Tree) (v : Nat) : Nat × (Nat → Nat) :=
  if v < UPAGES ∧ (T.leaf v).testBit 0 then (PTE_FLAGS (T.leaf v), s.mem (PTE2PA (T.leaf v)))
  else freshPage

/-- The pages from `a` on are fresh. -/
def freshFrom (a : Nat) (page : Nat → Nat × (Nat → Nat)) (v : Nat) : Nat × (Nat → Nat) :=
  if v < a then page v else freshPage

section seen

variable {r : Nat} {s t : Mach} {T T' : Tree} {H : Multiset Nat} {v : Nat}

theorem seen_valid (hv : v < UPAGES) (hV : (T.leaf v).testBit 0) :
    seen s T v = (PTE_FLAGS (T.leaf v), s.mem (PTE2PA (T.leaf v))) := if_pos ⟨hv, hV⟩

theorem seen_invalid (hV : (T.leaf v).testBit 0 = false) : seen s T v = freshPage := by
  refine if_neg ?_
  rw [hV]
  exact fun h => Bool.false_ne_true h.2

theorem seen_high (hv : UPAGES ≤ v) : seen s T v = freshPage :=
  if_neg fun h => absurd h.1 (Nat.not_lt.mpr hv)

theorem PTE_FLAGS_leafPte (pa : Nat) {perm : Nat} (hp : perm < 1024) :
    PTE_FLAGS (leafPte pa perm) = perm ||| PTE_V := by
  unfold PTE_FLAGS
  rw [leafPte_eq pa hp, show 1024 = 2 ^ 10 from rfl, Nat.mul_add_mod]
  exact Nat.mod_eq_of_lt (lor_PTE_V_lt hp)

/-- A mapped page that is still zeroed is a fresh one. -/
theorem seen_zeroed {x : Nat} (hx : x % 4096 = 0) (hl : T.leaf v = leafPte x faultPerm)
    (hz : ∀ j, s.mem x j = 0) : seen s T v = freshPage := by
  rcases Nat.lt_or_ge v UPAGES with hv | hv
  · have hV : (T.leaf v).testBit 0 := by
      rw [hl]
      exact leafPte_valid _ _
    rw [seen_valid hv hV, hl, PTE_FLAGS_leafPte x (by decide), PTE2PA_leafPte hx (by decide)]
    exact congrArg (Prod.mk _) (funext hz)
  · exact seen_high hv

/-- An entry and its page have not changed. -/
theorem seen_same (hl : T'.leaf v = T.leaf v)
    (hk : v < UPAGES → (T.leaf v).testBit 0 →
      t.mem (PTE2PA (T.leaf v)) = s.mem (PTE2PA (T.leaf v))) :
    seen t T' v = seen s T v := by
  rcases Nat.lt_or_ge v UPAGES with hv | hv
  · cases hV : (T.leaf v).testBit 0 with
    | false =>
      rw [seen_invalid hV, seen_invalid]
      rw [hl]
      exact hV
    | true =>
      have hV' : (T'.leaf v).testBit 0 := by
        rw [hl]
        exact hV
      rw [seen_valid hv hV, seen_valid hv hV', hl, hk hv hV]
  · rw [seen_high hv, seen_high hv]

theorem seen_congr (hl : T'.leaf = T.leaf) (hk : Keeps T.pages s t) : seen t T' = seen s T := by
  funext v
  exact seen_same (congrFun hl v) fun hv hV => hk _ (mem_pages hv hV)

/-- `vmfault` maps a page. -/
theorem seen_fault {x : Nat} (hx : x % 4096 = 0) (h0 : T.leaf v = 0)
    (hl : T'.leaf = update T.leaf v (leafPte x faultPerm)) (hk : Keeps T.pages s t)
    (hz : ∀ j, t.mem x j = 0) : seen t T' = seen s T := by
  funext w
  rcases eq_or_ne w v with heq | hne
  · have hnew : T'.leaf w = leafPte x faultPerm := by
      rw [hl, heq, update_self]
    rw [seen_zeroed hx hnew hz, seen_invalid]
    rw [heq, h0]
    exact Nat.zero_testBit 0
  · refine seen_same ?_ fun hv hV => hk _ (mem_pages hv hV)
    rw [hl, update_of_ne hne]

variable {a n sz : Nat}

/-- `uvmalloc` maps pages that had no entry. -/
theorem seen_grown (h0 : ∀ v, a ≤ v → v < a + n → v < UPAGES → T.leaf v = 0)
    (hg : Grown T.leaf T'.leaf a n faultPerm) (hk : Keeps T.pages s t) (hz : Zeroed t T'.leaf a n) :
    seen t T' = seen s T := by
  funext v
  by_cases hv : a ≤ v ∧ v < a + n
  · obtain ⟨pa, hpa, hl⟩ := hg.new v hv.1 hv.2
    have hz' := hz v hv.1 hv.2
    rw [hl, PTE2PA_leafPte hpa (by decide)] at hz'
    rw [seen_zeroed hpa hl hz']
    rcases Nat.lt_or_ge v UPAGES with hlt | hge
    · rw [seen_invalid]
      rw [h0 v hv.1 hv.2 hlt]
      exact Nat.zero_testBit 0
    · rw [seen_high hge]
  · exact seen_same (hg.old v (by omega)) fun hv hV => hk _ (mem_pages hv hV)

/-- `uvmdealloc` takes out all entries from page `a` on. -/
theorem seen_cleared (h0 : ∀ v, a + n ≤ v → v < UPAGES → T.leaf v = 0)
    (hl : T'.leaf = clearRange T.leaf a n) (hk : Keeps T'.pages s t) :
    seen t T' = freshFrom a (seen s T) := by
  funext v
  unfold freshFrom
  split
  · have hsame : T'.leaf v = T.leaf v := by
      rw [hl]
      exact if_neg (by omega)
    refine seen_same hsame fun hv hV => hk _ ?_
    rw [← hsame] at hV ⊢
    exact mem_pages hv hV
  · rcases Nat.lt_or_ge v UPAGES with hv | hv
    · refine seen_invalid ?_
      have hz : T'.leaf v = 0 := by
        rw [hl]
        unfold clearRange
        split
        · rfl
        · exact h0 v (by omega) hv
      rw [hz]
      exact Nat.zero_testBit 0
    · exact seen_high hv

/-- Nothing is mapped from page `a` on. -/
theorem freshFrom_seen (h0 : ∀ v, a ≤ v → v < UPAGES → T.leaf v = 0) :
    freshFrom a (seen s T) = seen s T := by
  funext v
  unfold freshFrom
  split
  · rfl
  · rcases Nat.lt_or_ge v UPAGES with hv | hv
    · rw [seen_invalid]
      rw [h0 v (by omega) hv]
      exact Nat.zero_testBit 0
    · rw [seen_high hv]

/-- The flags of a copied entry, which was valid. -/
theorem PTE_FLAGS_copied {w : Nat} (pa : Nat) (hV : w.testBit 0) :
    PTE_FLAGS (leafPte pa (PTE_FLAGS w)) = PTE_FLAGS w := by
  rw [PTE_FLAGS_leafPte pa (PTE_FLAGS_lt w)]
  refine Nat.eq_of_testBit_eq ?_
  intro i
  rw [Nat.testBit_or]
  have h0 : (PTE_FLAGS w).testBit 0 = true := by
    unfold PTE_FLAGS
    rw [show 1024 = 2 ^ 10 from rfl, Nat.testBit_mod_two_pow, hV]
    rfl
  cases i with
  | zero =>
    rw [h0]
    rfl
  | succ i =>
    have h1 : PTE_V.testBit (i + 1) = false := by
      rw [Nat.testBit_succ]
      exact Nat.zero_testBit i
    rw [h1, Bool.or_false]

/-- The child of `uvmcopy` sees what the parent sees. -/
theorem seen_copied {To : Tree} (h0 : ∀ v, n ≤ v → v < UPAGES → To.leaf v = 0)
    (h0' : ∀ v, v < UPAGES → T.leaf v = 0) (hc : Copied To.leaf T.leaf T'.leaf 0 n)
    (hd : SameData s To.leaf t T'.leaf 0 n) : seen t T' = seen s To := by
  funext v
  rcases Nat.lt_or_ge v UPAGES with hv | hv
  · rcases Nat.lt_or_ge v n with hlt | hge
    · cases hV : (To.leaf v).testBit 0 with
      | false =>
        rw [seen_invalid hV, seen_invalid]
        rw [hc.invalid v (Nat.zero_le v) (by omega) hV]
        exact Nat.zero_testBit 0
      | true =>
        obtain ⟨pa, -, hpa⟩ := hc.valid v (Nat.zero_le v) (by omega) hV
        have hV' : (T'.leaf v).testBit 0 := by
          rw [hpa]
          exact leafPte_valid _ _
        rw [seen_valid hv hV, seen_valid hv hV', hd v (Nat.zero_le v) (by omega) hV, hpa,
          PTE_FLAGS_copied pa hV]
    · rw [seen_invalid, seen_invalid]
      · rw [h0 v hge hv]
        exact Nat.zero_testBit 0
      · rw [hc.other v (by omega), h0' v hv]
        exact Nat.zero_testBit 0
  · rw [seen_high hv, seen_high hv]

/-- One user page is overwritten. -/
theorem seen_write (h : Holds s r T H) (hv : v < UPAGES) (hV : (T.leaf v).testBit 0)
    (d : Nat → Nat) :
    seen (s.setPage (PTE2PA (T.leaf v)) d) T =
      update (seen s T) v ((seen s T v).1, d) := by
  funext w
  rcases eq_or_ne w v with heq | hne
  · rw [heq, update_self, seen_valid hv hV, seen_valid hv hV]
    rw [setPage_self]
  · rw [update_of_ne hne]
    rcases Nat.lt_or_ge w UPAGES with hw | hw
    · cases hW : (T.leaf w).testBit 0 with
      | false => rw [seen_invalid hW, seen_invalid hW]
      | true =>
        rw [seen_valid hw hW, seen_valid hw hW]
        rw [setPage_of_ne (h.pages_inj hw hv hW hV hne)]
    · rw [seen_high hw, seen_high hw]

/-! ## Faults are not seen -/

/-- At most pages have been faulted in, and the frames `H` have kept their contents. -/
structure Unseen (sz : Nat) (s : Mach) (T : Tree) (H : Multiset Nat) (t : Mach) (T' : Tree) :
    Prop where
  faulted : Faulted sz T.leaf T'.leaf
  seen : seen t T' = seen s T
  keeps : Keeps H s t

theorem Unseen.refl (sz : Nat) (s : Mach) (T : Tree) (H : Multiset Nat) : Unseen sz s T H s T :=
  ⟨Faulted.refl _ _, rfl, Keeps.refl _ _⟩

theorem Unseen.trans {u : Mach} {T'' : Tree} (h : Unseen sz s T H t T')
    (h' : Unseen sz t T' H u T'') : Unseen sz s T H u T'' :=
  ⟨h.faulted.trans h'.faulted, h'.seen.trans h.seen, h.keeps.trans h'.keeps⟩

theorem Unseen.mono {H' : Multiset Nat} (h : Unseen sz s T H t T') (hsub : H' ⊆ H) :
    Unseen sz s T H' t T' :=
  ⟨h.faulted, h.seen, h.keeps.mono hsub⟩

theorem Unseen.same (hl : T'.leaf = T.leaf) (hk : Keeps (T.pages + H) s t) :
    Unseen sz s T H t T' where
  faulted := hl ▸ Faulted.refl _ _
  seen := seen_congr hl (hk.mono (subset_of_le (le_add_right _ _)))
  keeps := hk.mono (subset_of_le (le_add_left _ _))

theorem PageFaulted.unseen (f : PageFaulted r s T H sz v t T') : Unseen sz s T H t T' where
  faulted := f.faulted
  seen := by
    obtain ⟨x, hx, hl⟩ := f.now
    have hz := f.zeroed
    rw [hl, update_self, PTE2PA_leafPte hx (by decide)] at hz
    exact seen_fault hx f.was hl
      (f.keeps.mono (subset_of_le (le_add_right _ _))) hz
  keeps := f.keeps.mono (subset_of_le (le_add_left _ _))

theorem wp_copyinLoop {sz : Nat} (hsz : npages sz ≤ UPAGES) :
    ∀ (fuel : Nat) {s : Mach} {T : Tree} {srcva len : Nat} {Q : Bool → Mach → Prop},
      Holds s r T H → HighNoUser T.leaf →
      (∀ b t T', Goes r s T H t T' H → Unseen sz s T H t T' → Q b t) →
      wp Crit.total Q (copyinLoop r sz r fuel srcva len) s
  | 0, s, T, srcva, len, Q, h, _, hQ => hQ true s T (Goes.refl h) (Unseen.refl _ _ _ _)
  | fuel + 1, s, T, srcva, len, Q, h, hU, hQ => by
    unfold copyinLoop
    rcases Nat.eq_zero_or_pos len with h0 | hpos
    · rw [if_pos h0]
      exact hQ true s T (Goes.refl h) (Unseen.refl _ _ _ _)
    rw [if_neg (by omega)]
    rw [wp_bind]
    refine wp_userPage h hsz hU ?_ ?_ ?_ ?_
    · intro _ _ _
      exact wp_copyinLoop hsz fuel h hU hQ
    · intro t T' _ f
      refine wp_copyinLoop hsz fuel (h.goes f.goes) (hU.faulted hsz f.faulted) ?_
      intro b u T'' g hu
      exact hQ b u T'' (f.goes.trans g) (f.unseen.trans hu)
    · intro _ _
      exact hQ false s T (Goes.refl h) (Unseen.refl _ _ _ _)
    · intro t T' _ _ g hleaf hk
      exact hQ false t T' g (Unseen.same hleaf hk)

theorem wp_copyin {Q : Bool → Mach → Prop} {srcva len : Nat} (h : Holds s r T H)
    (hsz : npages sz ≤ UPAGES) (hU : HighNoUser T.leaf)
    (hQ : ∀ b t T', Goes r s T H t T' H → Unseen sz s T H t T' → Q b t) :
    wp Crit.total Q (copyin r sz r srcva len) s :=
  wp_copyinLoop hsz len h hU hQ

end seen

end Xv6
