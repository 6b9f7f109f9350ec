/-
  `copyin` and `copyout` byte by byte.

  `Transfer` says which bytes of a range are moved: those before the first page that is not open to
  the user once `vmfault` has had its chance.  `user_copies` puts it together with the bytes
  themselves, for every address and length, with `kalloc` failing at any call.  An address above
  `MAXVA` is refused before anything is added to it, so addresses need no bound here.
-/
import Xv6.Vm.Access
import Xv6.Vm.Runs

namespace Xv6

open Lib.Prog Multiset

/-! ## Bytes -/

/-- One byte of a word is replaced. -/
theorem digit_replace (w k b l : Nat) (hb : b < 256) :
    (w - w / 256 ^ k % 256 * 256 ^ k + b * 256 ^ k) / 256 ^ l % 256 =
      if l = k then b else w / 256 ^ l % 256 := by
  have hp : 0 < 256 ^ k := Nat.pow_pos (by decide)
  -- the word is `hi`, the byte and `lo`
  obtain ⟨hi, hhi⟩ : ∃ hi, hi = w / 256 ^ k / 256 := ⟨_, rfl⟩
  obtain ⟨lo, hlo⟩ : ∃ lo, lo = w % 256 ^ k := ⟨_, rfl⟩
  have hlt : lo < 256 ^ k := hlo ▸ Nat.mod_lt w hp
  have hw : ∀ d, d < 256 → (256 ^ k * (256 * hi + d) + lo) / 256 ^ l % 256 =
      if l < k then lo / 256 ^ l % 256 else if l = k then d else hi / 256 ^ (l - k - 1) % 256 := by
    intro d hd
    have hhigh : (256 ^ k * (256 * hi + d) + lo) / 256 ^ k = 256 * hi + d := by
      rw [Nat.mul_add_div hp, Nat.div_eq_of_lt hlt, Nat.add_zero]
    rcases lt_trichotomy l k with h | h | h
    · rw [if_pos h]
      have hsplit : 256 ^ k = 256 ^ l * (256 * 256 ^ (k - l - 1)) := by
        rw [← pow_succ', ← pow_add]
        congr 1
        omega
      rw [hsplit, Nat.mul_assoc, Nat.mul_add_div (Nat.pow_pos (by decide)), Nat.mul_assoc,
        Nat.mul_add_mod]
    · rw [if_neg (by omega), if_pos h, h]
      omega
    · rw [if_neg (by omega), if_neg (by omega)]
      have hsplit : 256 ^ l = 256 ^ k * (256 * 256 ^ (l - k - 1)) := by
        rw [← pow_succ', ← pow_add]
        congr 1
        omega
      rw [hsplit, ← Nat.div_div_eq_div_mul, ← Nat.div_div_eq_div_mul]
      congr 2
      omega
  have hold : w = 256 ^ k * (256 * hi + w / 256 ^ k % 256) + lo := by
    rw [hhi, Nat.div_add_mod, hlo, Nat.div_add_mod]
  have hnew : w - w / 256 ^ k % 256 * 256 ^ k + b * 256 ^ k = 256 ^ k * (256 * hi + b) + lo := by
    generalize w / 256 ^ k % 256 = d at hold
    rw [hold, Nat.mul_add, Nat.mul_add, Nat.mul_comm d, Nat.mul_comm b]
    omega
  rw [hnew, hw b hb]
  rcases eq_or_ne l k with h | h
  · rw [if_neg (by omega), if_pos h, if_pos h]
  · rw [if_neg h, if_neg h]
    have hrest := hw (w / 256 ^ k % 256) (Nat.mod_lt _ (by decide))
    rw [← hold, if_neg h] at hrest
    exact hrest.symm

theorem getByte_setByte (page : Nat → Nat) (i b j : Nat) :
    getByte (setByte page i b) j = if j = i then b % 256 else getByte page j := by
  unfold getByte setByte
  rcases eq_or_ne (j / 8) (i / 8) with hw | hw
  · rw [hw, Function.update_self]
    unfold getByte
    rw [digit_replace _ _ _ _ (Nat.mod_lt b (by decide))]
    have hiff : j % 8 = i % 8 ↔ j = i := by omega
    simp only [hiff]
  · rw [Function.update_of_ne hw, if_neg]
    intro h
    exact hw (by rw [h])

theorem getByte_setBytes (bs : List Nat) : ∀ (page : Nat → Nat) (i j : Nat),
    getByte (setBytes page i bs) j =
      if i ≤ j ∧ j < i + bs.length then bs.getD (j - i) 0 % 256 else getByte page j := by
  induction bs with
  | nil =>
    intro page i j
    rw [if_neg (by simp), setBytes]
  | cons b bs ih =>
    intro page i j
    rw [setBytes, ih, getByte_setByte, List.length_cons]
    by_cases hlater : i + 1 ≤ j ∧ j < i + 1 + bs.length
    · rw [if_pos hlater, if_pos (by omega), show j - i = j - (i + 1) + 1 by omega,
        List.getD_cons_succ]
    · rw [if_neg hlater]
      rcases eq_or_ne j i with heq | hne
      · rw [if_pos heq, if_pos (by omega), heq, Nat.sub_self, List.getD_cons_zero]
      · rw [if_neg hne, if_neg (by omega)]

/-- The byte that the user sees at address `a`. -/
def userByte (page : Nat → Nat × (Nat → Nat)) (a : Nat) : Nat :=
  getByte (page (a / PGSIZE)).2 (a % PGSIZE)

def userBytes (page : Nat → Nat × (Nat → Nat)) (a n : Nat) : List Nat :=
  (List.range n).map fun i => userByte page (a + i)

theorem userBytes_add (page : Nat → Nat × (Nat → Nat)) (a n m : Nat) :
    userBytes page a (n + m) = userBytes page a n ++ userBytes page (a + n) m := by
  unfold userBytes
  rw [List.range_add, List.map_append, List.map_map]
  congr 1
  refine List.map_congr_left fun i _ => ?_
  rw [Function.comp_apply, Nat.add_assoc]

@[simp] theorem length_userBytes (page : Nat → Nat × (Nat → Nat)) (a n : Nat) :
    (userBytes page a n).length = n := by
  simp [userBytes]

/-- How many bytes of a range of length `len` at `va` are on the first page. -/
def onPage (va len : Nat) : Nat := min (PGSIZE - va % PGSIZE) len

theorem page_of_lt {va len i : Nat} (hi : i < onPage va len) : (va + i) / PGSIZE = va / PGSIZE := by
  unfold onPage at hi
  simp only [PGSIZE] at *
  omega

theorem sub_PGROUNDDOWN (va : Nat) : va - PGROUNDDOWN va = va % PGSIZE := by
  unfold PGROUNDDOWN
  simp only [PGSIZE]
  omega

/-- The rest of a range, if there is any, begins with a page. -/
theorem next_page {va len : Nat} (h : 0 < len - onPage va len) :
    PGROUNDDOWN va + PGSIZE = va + onPage va len := by
  unfold onPage PGROUNDDOWN at *
  simp only [PGSIZE] at *
  omega

theorem getBytes_onPage (page : Nat → Nat × (Nat → Nat)) (va len : Nat) :
    getBytes (page (va / PGSIZE)).2 (va % PGSIZE) (onPage va len) =
      userBytes page va (onPage va len) := by
  refine List.map_congr_left fun i hi => ?_
  have hi := List.mem_range.mp hi
  unfold userByte
  rw [page_of_lt hi]
  congr 1
  unfold onPage at hi
  simp only [PGSIZE] at *
  omega

/-- The bytes of one page after `copyout` has been there. -/
theorem userByte_copyData (page : Nat → Nat × (Nat → Nat)) {dstva va len : Nat} {src : List Nat}
    (hlen : va + len = dstva + src.length) (hle : dstva ≤ va) (a : Nat) :
    userByte (writePage page (va / PGSIZE) (copyData dstva src va (page (va / PGSIZE)).2)) a =
      if va ≤ a ∧ a < va + onPage va len then src.getD (a - dstva) 0 % 256
      else userByte page a := by
  unfold userByte writePage
  rcases eq_or_ne (a / PGSIZE) (va / PGSIZE) with hv | hv
  · rw [hv, Function.update_self]
    unfold copyData
    rw [getByte_setBytes, List.length_take, List.length_drop]
    have hiff : (va % PGSIZE ≤ a % PGSIZE ∧ a % PGSIZE <
        va % PGSIZE + min (PGSIZE - va % PGSIZE) (src.length - (va - dstva))) ↔
        (va ≤ a ∧ a < va + onPage va len) := by
      unfold onPage
      simp only [PGSIZE] at *
      omega
    by_cases hin : va ≤ a ∧ a < va + onPage va len
    · rw [if_pos hin, if_pos (hiff.mpr hin)]
      have hidx : va - dstva + (a % PGSIZE - va % PGSIZE) = a - dstva := by
        simp only [PGSIZE] at *
        omega
      have hlt : a % PGSIZE - va % PGSIZE < PGSIZE - va % PGSIZE := by
        omega
      rw [List.getD_eq_getElem?_getD, List.getElem?_take_of_lt hlt, List.getElem?_drop, hidx,
        ← List.getD_eq_getElem?_getD]
    · rw [if_neg hin, if_neg (hiff.not.mpr hin)]
  · rw [Function.update_of_ne hv, if_neg]
    rintro ⟨h1, h2⟩
    refine hv ?_
    have hin : a - va < onPage va len := by omega
    rw [show a = va + (a - va) by omega]
    exact page_of_lt hin

/-! ## Which bytes are moved -/

/-- Page `v` is open to the user, and for a write is writable. -/
def Accessible (write : Bool) (leaf : Nat → Nat) (v : Nat) : Prop :=
  v < UPAGES ∧ (leaf v).testBit 0 ∧ (leaf v).testBit 4 ∧ (write = true → (leaf v).testBit 2)

/-- Page `v` is accessible, or `vmfault` would make it so. -/
def Allocatable (write : Bool) (sz : Nat) (leaf : Nat → Nat) (v : Nat) : Prop :=
  Accessible write leaf v ∨ leaf v = 0 ∧ v < npages sz

/-- Of `len` bytes at `va` the first `m` are moved, while the entries go from `leaf` to `leaf'`. -/
structure Transfer (write : Bool) (sz : Nat) (leaf leaf' : Nat → Nat) (va len m : Nat) (ok : Bool) :
    Prop where
  le : m ≤ len
  all : ok = true ↔ m = len
  faulted : Faulted sz leaf leaf'
  within : ∀ v, leaf' v ≠ leaf v → va / PGSIZE ≤ v ∧ v * PGSIZE < va + len
  moved : ∀ i, i < m → Accessible write leaf' ((va + i) / PGSIZE)
  stop : m < len → ¬ Accessible write leaf' ((va + m) / PGSIZE)

section transfer

variable {write ok : Bool} {sz va len m v : Nat} {leaf leaf' leaf'' : Nat → Nat}

theorem Accessible.faulted (h : Accessible write leaf v) (hf : Faulted sz leaf leaf') :
    Accessible write leaf' v := by
  rcases hf v with heq | ⟨h0, -⟩
  · unfold Accessible
    rw [heq]
    exact h
  · have hV := h.2.1
    rw [h0] at hV
    cases hV

theorem Transfer.nil (write : Bool) (sz va : Nat) (leaf : Nat → Nat) :
    Transfer write sz leaf leaf va 0 0 true := by
  refine ⟨le_refl 0, ⟨fun _ => rfl, fun _ => rfl⟩, Faulted.refl _ _, ?_, ?_, ?_⟩
  · intro v hv
    exact absurd rfl hv
  · intro i hi
    omega
  · intro h
    omega

/-- The first page is refused. -/
theorem Transfer.refused (hl : leaf' = leaf) (hpos : 0 < len)
    (h : ¬ Accessible write leaf (va / PGSIZE)) : Transfer write sz leaf leaf' va len 0 false := by
  rw [hl]
  refine ⟨Nat.zero_le _, ⟨?_, ?_⟩, Faulted.refl _ _, ?_, ?_, fun _ => h⟩
  · intro hc
    cases hc
  · intro hc
    omega
  · intro v hv
    exact absurd rfl hv
  · intro i hi
    omega

/-- The first page is moved, and then `m` bytes of the rest. -/
theorem Transfer.step (hf : Faulted sz leaf leaf') (honly : ∀ v, v ≠ va / PGSIZE → leaf' v = leaf v)
    (ha : Accessible write leaf' (va / PGSIZE)) (hpos : 0 < len)
    (h : Transfer write sz leaf' leaf'' (PGROUNDDOWN va + PGSIZE) (len - onPage va len) m ok) :
    Transfer write sz leaf leaf'' va len (onPage va len + m) ok := by
  have hon : onPage va len ≤ len := Nat.min_le_right _ _
  have hle := h.le
  refine ⟨by omega, ?_, hf.trans h.faulted, ?_, ?_, ?_⟩
  · rw [h.all]
    omega
  · intro v hv
    by_cases hsame : leaf'' v = leaf' v
    · rw [hsame] at hv
      have hv : v = va / PGSIZE := by
        by_contra hne
        exact hv (honly v hne)
      rw [hv]
      refine ⟨le_refl _, ?_⟩
      have := Nat.div_mul_le_self va PGSIZE
      omega
    · obtain ⟨h1, h2⟩ := h.within v hsame
      have hrest : 0 < len - onPage va len := by
        by_contra hz
        simp only [PGSIZE, PGROUNDDOWN] at *
        omega
      rw [next_page hrest] at h1 h2
      refine ⟨(Nat.div_le_div_right (Nat.le_add_right _ _)).trans h1, ?_⟩
      omega
  · intro i hi
    rcases Nat.lt_or_ge i (onPage va len) with hlt | hge
    · rw [page_of_lt hlt]
      exact ha.faulted h.faulted
    · have hrest : 0 < len - onPage va len := by omega
      have hmoved := h.moved (i - onPage va len) (by omega)
      rw [next_page hrest, Nat.add_assoc, Nat.add_sub_cancel' hge] at hmoved
      exact hmoved
  · intro hlt
    have hrest : 0 < len - onPage va len := by omega
    have hstop := h.stop (by omega)
    rw [next_page hrest, Nat.add_assoc] at hstop
    exact hstop

/-- A transfer goes through exactly if all of its pages are accessible in the end. -/
theorem Transfer.ok_iff (h : Transfer write sz leaf leaf' va len m ok) :
    ok = true ↔ ∀ i, i < len → Accessible write leaf' ((va + i) / PGSIZE) := by
  rw [h.all]
  constructor
  · intro heq i hi
    exact h.moved i (by omega)
  · intro hall
    have := h.le
    by_contra hne
    exact h.stop (by omega) (hall m (by omega))

/-- Then all of its pages were accessible or could be allocated. -/
theorem Transfer.allocatable (h : Transfer write sz leaf leaf' va len m true) {i : Nat}
    (hi : i < len) : Allocatable write sz leaf ((va + i) / PGSIZE) := by
  have ha := h.ok_iff.mp rfl i hi
  rcases h.faulted ((va + i) / PGSIZE) with heq | ⟨h0, hlt, -⟩
  · unfold Accessible at ha
    rw [heq] at ha
    exact Or.inl ha
  · exact Or.inr ⟨h0, hlt⟩

end transfer

section copies

variable {r sz tramp tf : Nat} {s t : Mach} {T T' : Tree} {H : Multiset Nat} {guard : Option Nat}

/-- What getting hold of page `v` has done: at most to fault it in. -/
structure PageFound (r : Nat) (s : Mach) (T : Tree) (H : Multiset Nat) (sz v : Nat) (t : Mach)
    (T' : Tree) : Prop where
  faults : FaultsTo r s T H sz t T'
  only : ∀ w, w ≠ v → T'.leaf w = T.leaf w
  seen : seen t T' = seen s T
  keeps : Keeps H s t

theorem PageFound.refl (v : Nat) (h : Holds s r T H) : PageFound r s T H sz v s T :=
  ⟨FaultsTo.refl h, fun _ _ => rfl, rfl, Keeps.refl _ _⟩

/-- The frame of a page that is open to the user now, or nothing where no entry has changed. -/
theorem wp_userPage_found {Q : Option Nat → Mach → Prop} {v : Nat}
    (h : Mem s r T H sz guard tramp tf)
    (hn : ∀ t T', PageFound r s T H sz v t T' → T'.leaf = T.leaf →
      ¬ Accessible false T.leaf v → Q none t)
    (hs : ∀ t T', PageFound r s T H sz v t T' → Accessible false T'.leaf v →
      (T'.leaf = T.leaf ∨ (T'.leaf v).testBit 2) → Q (some (PTE2PA (T'.leaf v))) t) :
    wp Crit.total Q (userPage r sz r (v * PGSIZE)) s := by
  have hpages : T.pages ⊆ T.pages + H := subset_of_le (le_add_right _ _)
  have hheld : H ⊆ T.pages + H := subset_of_le (le_add_left _ _)
  refine wp_userPage h.holds h.space.npages_le h.space.highNoUser ?_ ?_ ?_ ?_
  · intro hv hV hU
    exact hs s T (PageFound.refl v h.holds) ⟨hv, hV, hU, fun hc => by cases hc⟩ (Or.inl rfl)
  · intro t T' hv f
    obtain ⟨x, hx, hl⟩ := f.now
    have hnew : T'.leaf v = leafPte x faultPerm := by
      rw [hl, Function.update_self]
    have hbit : ∀ i, i = 0 ∨ i = 2 ∨ i = 4 → (T'.leaf v).testBit i = true := by
      intro i hi
      rw [hnew, testBit_leafPte x (by decide) (by omega)]
      rcases hi with rfl | rfl | rfl <;> rfl
    have hz := f.zeroed
    rw [hnew, PTE2PA_leafPte hx (by decide)] at hz
    refine hs t T' ⟨⟨f.goes, f.faulted⟩, ?_, ?_, f.keeps.mono hheld⟩
      ⟨hv, hbit 0 (by omega), hbit 4 (by omega), fun hc => by cases hc⟩ (Or.inr (hbit 2 (by omega)))
    · intro w hw
      rw [hl, Function.update_of_ne hw]
    · exact seen_fault hx f.was hl (f.keeps.mono hpages) hz
  · intro hno _
    refine hn s T (PageFound.refl v h.holds) rfl ?_
    rintro ⟨hv, hV, hU, -⟩
    exact hno ⟨hV, hU, hv⟩
  · intro t T' hlt h0 g hleaf hk
    refine hn t T' ⟨⟨g, hleaf ▸ Faulted.refl _ _⟩, fun w _ => by rw [hleaf],
      seen_congr hleaf (hk.mono hpages), hk.mono hheld⟩ hleaf ?_
    rintro ⟨-, hV, -⟩
    rw [h0] at hV
    cases hV

theorem page_not_held (h : Holds s r T H) {f : Nat} (hf : f ∈ T.pages) : f ∉ H := by
  intro hc
  exact disjoint_left.mp (nodup_add.mp h.nodup).2.2 (mem_foot_page hf) hc

theorem wp_copyinBytesLoop_exact : ∀ (fuel : Nat) {s : Mach} {T : Tree} {srcva len : Nat},
    Mem s r T H sz guard tramp tf → len ≤ fuel →
    wp Crit.total (fun res t => ∃ T', Goes r s T H t T' H ∧ Keeps H s t ∧ seen t T' = seen s T ∧
      Transfer false sz T.leaf T'.leaf srcva len res.2.length res.1 ∧
      res.2 = userBytes (seen s T) srcva res.2.length) (copyinBytesLoop r sz r fuel srcva len) s
  | 0, s, T, srcva, len, h, hle => by
    have h0 : len = 0 := by omega
    rw [h0]
    exact ⟨T, Goes.refl h.holds, Keeps.refl _ _, rfl, Transfer.nil _ _ _ _, rfl⟩
  | fuel + 1, s, T, srcva, len, h, hle => by
    unfold copyinBytesLoop
    rcases Nat.eq_zero_or_pos len with h0 | hpos
    · rw [h0]
      exact ⟨T, Goes.refl h.holds, Keeps.refl _ _, rfl, Transfer.nil _ _ _ _, rfl⟩
    rw [if_neg (by omega), wp_bind]
    refine wp_userPage_found h ?_ ?_
    · intro t T' hp hleaf hno
      exact ⟨T', hp.faults.goes, hp.keeps, hp.seen, Transfer.refused hleaf hpos hno, rfl⟩
    · intro t T' hp ha _
      have ht := h.faults hp.faults
      have hon : 0 < onPage srcva len := by
        unfold onPage
        simp only [PGSIZE]
        omega
      simp only [wp_bind, wp_look, sub_PGROUNDDOWN]
      refine ⟨trivial, wp_mono (wp_copyinBytesLoop_exact fuel ht ?_) ?_⟩
      · unfold onPage at hon
        omega
      · rintro ⟨ok, rest⟩ u ⟨T'', g, hk, hseen, htr, hrest⟩
        have hpage : getBytes (t.mem (PTE2PA (T'.leaf (srcva / PGSIZE)))) (srcva % PGSIZE)
            (onPage srcva len) = userBytes (seen s T) srcva (onPage srcva len) := by
          rw [← getBytes_onPage, ← hp.seen, seen_valid ha.1 ha.2.1]
        have hstep := Transfer.step hp.faults.faulted hp.only ha hpos htr
        refine ⟨T'', hp.faults.goes.trans g, hp.keeps.trans hk, hseen.trans hp.seen, ?_, ?_⟩
        · show Transfer false sz T.leaf T''.leaf srcva len
            (getBytes _ (srcva % PGSIZE) (onPage srcva len) ++ rest).length ok
          rw [hpage, List.length_append, length_userBytes]
          exact hstep
        · show getBytes _ (srcva % PGSIZE) (onPage srcva len) ++ rest = userBytes _ _
            (getBytes _ (srcva % PGSIZE) (onPage srcva len) ++ rest).length
          rw [hpage, List.length_append, length_userBytes, userBytes_add]
          congr 1
          rcases Nat.eq_zero_or_pos rest.length with hz | hz
          · rw [hz]
            exact List.length_eq_zero_iff.mp hz
          · have hle := htr.le
            rw [next_page (Nat.lt_of_lt_of_le hz hle), hp.seen] at hrest
            exact hrest

theorem wp_copyoutLoop_exact {dstva : Nat} {src : List Nat} :
    ∀ (fuel : Nat) {s : Mach} {T : Tree} {va len : Nat}, Mem s r T H sz guard tramp tf →
    len ≤ fuel → dstva ≤ va → (0 < len → va + len = dstva + src.length) →
    wp Crit.total (fun ok t => ∃ T' m, Goes r s T H t T' H ∧ Keeps H s t ∧
      Transfer true sz T.leaf T'.leaf va len m ok ∧
      ∀ a, userByte (seen t T') a = if va ≤ a ∧ a < va + m then src.getD (a - dstva) 0 % 256
        else userByte (seen s T) a) (copyoutLoop r sz r (copyData dstva src) fuel va len) s
  | 0, s, T, va, len, h, hle, _, _ => by
    have h0 : len = 0 := by omega
    rw [h0]
    refine ⟨T, 0, Goes.refl h.holds, Keeps.refl _ _, Transfer.nil _ _ _ _, fun a => ?_⟩
    rw [if_neg (by omega)]
  | fuel + 1, s, T, va, len, h, hle, hva, hlen => by
    have hnone : ∀ a t T', seen t T' = seen s T → userByte (seen t T') a =
        if va ≤ a ∧ a < va + 0 then src.getD (a - dstva) 0 % 256 else userByte (seen s T) a := by
      intro a t T' hseen
      rw [if_neg (by omega), hseen]
    unfold copyoutLoop
    rcases Nat.eq_zero_or_pos len with h0 | hpos
    · rw [h0]
      exact ⟨T, 0, Goes.refl h.holds, Keeps.refl _ _, Transfer.nil _ _ _ _,
        fun a => hnone a s T rfl⟩
    rw [if_neg (by omega)]
    by_cases hmax : PGROUNDDOWN va ≥ MAXVA
    · rw [if_pos hmax]
      refine ⟨T, 0, Goes.refl h.holds, Keeps.refl _ _, Transfer.refused rfl hpos ?_,
        fun a => hnone a s T rfl⟩
      rintro ⟨hv, -⟩
      exact absurd (user_lt_MAXVA hv) (Nat.not_lt.mpr hmax)
    rw [if_neg hmax, wp_bind]
    refine wp_userPage_found h ?_ ?_
    · intro t T' hp hleaf hno
      refine ⟨T', 0, hp.faults.goes, hp.keeps, Transfer.refused hleaf hpos ?_,
        fun a => hnone a t T' hp.seen⟩
      rintro ⟨hv, hV, hU, -⟩
      exact hno ⟨hv, hV, hU, fun hc => by cases hc⟩
    · intro t T' hp ha hW
      have ht := h.faults hp.faults
      obtain ⟨hv, hV, hU, -⟩ := ha
      simp only [wp_bind]
      refine wp_walk_valid ht.holds.rep (user_lt_MAXVA hv) hV fun p hslot => ?_
      simp only [wp_bind]
      refine wp_load _ ?_
      rw [ht.holds.rep.load_slot hslot]
      cases hbit : (T'.leaf (va / PGSIZE)).testBit 2 with
      | false =>
        -- a page that was faulted in would be writable
        have hleaf : T'.leaf = T.leaf := by
          rcases hW with hleaf | hc
          · exact hleaf
          · rw [hbit] at hc
            cases hc
        refine ⟨T', 0, hp.faults.goes, hp.keeps, Transfer.refused hleaf hpos ?_,
          fun a => hnone a t T' hp.seen⟩
        rintro ⟨-, -, -, hc⟩
        rw [← hleaf, hbit] at hc
        cases hc rfl
      | true =>
        rw [if_neg (not_not.mpr rfl)]
        simp only [wp_bind, wp_update, sub_PGROUNDDOWN]
        refine ⟨trivial, ?_⟩
        obtain ⟨d, hd⟩ : ∃ d, d = copyData dstva src va (t.mem (PTE2PA (T'.leaf (va / PGSIZE)))) :=
          ⟨_, rfl⟩
        rw [← hd]
        have hwr := FaultsTo.write sz ht.holds hv hV d
        have hon : 0 < onPage va len := by
          unfold onPage
          simp only [PGSIZE]
          omega
        have hle' : len - onPage va len ≤ fuel := by omega
        rw [show min (PGSIZE - va % PGSIZE) len = onPage va len from rfl]
        refine wp_mono (wp_copyoutLoop_exact fuel (ht.faults hwr) hle' ?_ ?_) ?_
        · have := Nat.mod_lt va (show 0 < PGSIZE by decide)
          have := sub_PGROUNDDOWN va
          omega
        · intro hrest
          rw [next_page hrest]
          omega
        · rintro ok u ⟨T'', m, g, hk, htr, hbytes⟩
          have hkeep : Keeps H t (t.setPage _ d) :=
            Keeps.write (page_not_held ht.holds (mem_pages hv hV)) d
          refine ⟨T'', onPage va len + m, hp.faults.goes.trans (hwr.goes.trans g),
            hp.keeps.trans (hkeep.trans hk),
            Transfer.step hp.faults.faulted hp.only ⟨hv, hV, hU, fun _ => hbit⟩ hpos htr, ?_⟩
          intro a
          have hmle := htr.le
          rw [hbytes a, seen_write ht.holds hv hV, hp.seen]
          have hpage : (seen s T (va / PGSIZE)).2 = t.mem (PTE2PA (T'.leaf (va / PGSIZE))) := by
            rw [← hp.seen, seen_valid hv hV]
          have hone := userByte_copyData (seen s T) (hlen hpos) hva a
          rw [hpage, ← hd] at hone
          unfold writePage at hone
          rw [hone]
          rcases Nat.eq_zero_or_pos m with hz | hz
          · rw [hz, if_neg (by omega)]
            rfl
          · have hrest : 0 < len - onPage va len := by omega
            rw [next_page hrest]
            by_cases h1 : va + onPage va len ≤ a ∧ a < va + onPage va len + m
            · rw [if_pos h1, if_pos (by omega)]
            · rw [if_neg h1]
              by_cases h2 : va ≤ a ∧ a < va + onPage va len
              · rw [if_pos h2, if_pos (by omega)]
              · rw [if_neg h2, if_neg (by omega)]

/-! ## With memory for every page -/

/-- What holds of all pages of a range holds of those after the first one. -/
theorem rest_pages {P : Nat → Prop} {va len : Nat} (h : ∀ i, i < len → P ((va + i) / PGSIZE))
    (i : Nat) (hi : i < len - onPage va len) : P ((PGROUNDDOWN va + PGSIZE + i) / PGSIZE) := by
  rw [next_page (Nat.lt_of_le_of_lt (Nat.zero_le i) hi), Nat.add_assoc]
  exact h _ (Nat.add_lt_of_lt_sub' hi)

theorem copyinSeen_true {page : Nat → Nat × (Nat → Nat)} : ∀ (fuel : Nat) {va len : Nat},
    (∀ i, i < len → Inside sz page ((va + i) / PGSIZE)) → (copyinSeen sz page fuel va len).1 = true
  | 0, _, _, _ => rfl
  | fuel + 1, va, len, h => by
    unfold copyinSeen
    rcases Nat.eq_zero_or_pos len with h0 | hpos
    · rw [if_pos h0]
    · have hfirst := h 0 hpos
      rw [Nat.add_zero] at hfirst
      rw [if_neg (by omega), if_pos hfirst, sub_PGROUNDDOWN]
      exact copyinSeen_true fuel (rest_pages h)

theorem copyoutSeen_true {data : Nat → (Nat → Nat) → Nat → Nat} : ∀ (fuel : Nat) {va len : Nat}
    {page : Nat → Nat × (Nat → Nat)},
    (∀ i, i < len → Inside sz page ((va + i) / PGSIZE) ∧
      (page ((va + i) / PGSIZE)).1.testBit 2) → (copyoutSeen sz data fuel va len page).1 = true
  | 0, _, _, _, _ => rfl
  | fuel + 1, va, len, page, h => by
    unfold copyoutSeen
    rcases Nat.eq_zero_or_pos len with h0 | hpos
    · rw [if_pos h0]
    · have hfirst := h 0 hpos
      rw [Nat.add_zero] at hfirst
      rw [if_neg (by omega), if_pos hfirst, sub_PGROUNDDOWN]
      refine copyoutSeen_true fuel fun i hi => ?_
      have hi' := rest_pages (P := fun v => Inside sz page v ∧ (page v).1.testBit 2) h i hi
      -- the flags are as before
      have hflags : ∀ v, (writePage page (va / PGSIZE) (data va (page (va / PGSIZE)).2) v).1 =
          (page v).1 := by
        intro v
        unfold writePage
        rcases eq_or_ne v (va / PGSIZE) with heq | hne
        · rw [heq, Function.update_self]
        · rw [Function.update_of_ne hne]
      unfold Inside at *
      rw [hflags]
      exact hi'

theorem Mem.inside (h : Mem s r T H sz guard tramp tf) {v : Nat} {write : Bool}
    (ha : Allocatable write sz T.leaf v) :
    Inside sz (seen s T) v ∧ (write = true → (seen s T v).1.testBit 2) := by
  rcases ha with ⟨hv, hV, hU, hW⟩ | ⟨h0, hlt⟩
  · refine ⟨⟨h.space.below v hv hV, ?_⟩, ?_⟩
    · rw [seen_flag (by omega) hv, hU, Bool.or_true]
    · intro hw
      rw [seen_flag (by omega) hv, hW hw, Bool.or_true]
  · have hV : (T.leaf v).testBit 0 = false := by
      rw [h0]
      exact Nat.zero_testBit 0
    unfold Inside
    rw [seen_invalid hV]
    exact ⟨⟨hlt, rfl⟩, fun _ => rfl⟩

/-! ## The copies as a whole -/

/-- Frames that are neither the process's nor free keep their contents. -/
def Confined (r : Nat) (s : Mach) (T : Tree) (t : Mach) : Prop :=
  ∀ f, f ∉ Foot r T s.freelist → t.mem f = s.mem f

theorem Goes.confined (g : Goes r s T H t T' H) (hk : Keeps H s t) : Confined r s T t := by
  intro f hf
  by_cases hH : f ∈ H
  · exact hk f hH
  · refine g.mem f fun hc => ?_
    rcases mem_add.mp hc with hc | hc
    · exact hf hc
    · exact hH hc

/-- `copyin` and `copyout` of a process with the address-space invariant.  The pages of a transfer
    are open to the user in the page table at the end, where they are as they were or have been
    faulted in as zeroed pages below the size (`Transfer.faulted`). -/
theorem user_copies (h : Mem s r T {tf} sz guard tramp tf) :
    (∀ srcva len, ∃ ok bytes t T', (copyinBytes r sz r srcva len).run s = .done (ok, bytes) t ∧
      Rep t.mem r T' ∧ Confined r s T t ∧ seen t T' = seen s T ∧
      Transfer false sz T.leaf T'.leaf srcva len bytes.length ok ∧
      bytes = userBytes (seen s T) srcva bytes.length ∧
      (Always Granted (copyinBytes r sz r srcva len) s →
        (ok = true ↔ ∀ i, i < len → Allocatable false sz T.leaf ((srcva + i) / PGSIZE)))) ∧
    ∀ dstva (src : List UInt8), ∃ ok t T' m,
      (copyout r sz r dstva src.length (copyData dstva (src.map UInt8.toNat))).run s = .done ok t ∧
      Rep t.mem r T' ∧ Confined r s T t ∧
      Transfer true sz T.leaf T'.leaf dstva src.length m ok ∧
      (∀ a, userByte (seen t T') a = if dstva ≤ a ∧ a < dstva + m then (src.getD (a - dstva) 0).toNat
        else userByte (seen s T) a) ∧
      (Always Granted (copyout r sz r dstva src.length (copyData dstva (src.map UInt8.toNat))) s →
        (ok = true ↔ ∀ i, i < src.length →
          Allocatable true sz T.leaf ((dstva + i) / PGSIZE))) := by
  constructor
  · intro srcva len
    have hwp : wp Crit.total _ (copyinBytes r sz r srcva len) s :=
      wp_copyinBytesLoop_exact len h (le_refl len)
    obtain ⟨⟨ok, bytes⟩, t, hrun, T', g, hk, hseen, htr, hbytes⟩ := wp_run_total hwp
    refine ⟨ok, bytes, t, T', hrun, g.rep, g.confined hk, hseen, htr, hbytes, ?_⟩
    intro hG
    constructor
    · rintro rfl i hi
      exact htr.allocatable hi
    · intro hall
      obtain ⟨res, t', hrun', -, -, -, hres⟩ := given_run (granted_copyinBytes h) hG
      rw [hrun] at hrun'
      injection hrun' with heq _
      have hok : ok = res.1 := congrArg Prod.fst heq
      rw [hok, hres]
      exact copyinSeen_true len fun i hi => (h.inside (hall i hi)).1
  · intro dstva src
    have hlen : (src.map UInt8.toNat).length = src.length := List.length_map _
    have hwp : wp Crit.total _
        (copyout r sz r dstva src.length (copyData dstva (src.map UInt8.toNat))) s :=
      wp_copyoutLoop_exact src.length h (le_refl _) (le_refl dstva) fun _ => by rw [hlen]
    obtain ⟨ok, t, hrun, T', m, g, hk, htr, hbytes⟩ := wp_run_total hwp
    refine ⟨ok, t, T', m, hrun, g.rep, g.confined hk, htr, ?_, ?_⟩
    · intro a
      rw [hbytes a]
      congr 1
      have hget : (src.map UInt8.toNat).getD (a - dstva) 0 = (src.getD (a - dstva) 0).toNat := by
        rw [show (0 : Nat) = UInt8.toNat 0 from rfl, List.getD_map]
      rw [hget]
      exact Nat.mod_eq_of_lt (UInt8.toNat_lt _)
    · intro hG
      constructor
      · rintro rfl i hi
        exact htr.allocatable hi
      · intro hall
        obtain ⟨b, t', hrun', T1, -, hres⟩ := given_run (granted_copyout h) hG
        rw [hrun] at hrun'
        injection hrun' with heq _
        have hok : ok = _ := heq.trans (congrArg Prod.fst hres)
        rw [hok]
        refine copyoutSeen_true src.length fun i hi => ?_
        obtain ⟨hin, hW⟩ := h.inside (hall i hi)
        exact ⟨hin, hW rfl⟩

/-- The first process hands eight bytes to the kernel, four of them in a page it has not touched. -/
theorem user_copies_small : ∃ s r T sz guard tramp tf, Mem s r T {tf} sz guard tramp tf ∧
    ∃ (bytes : List Nat) (t : Mach) (T' : Tree),
      (copyinBytes r sz r 12284 8).run s = .done (true, bytes) t ∧
      bytes = userBytes (seen s T) 12284 8 ∧ Transfer false sz T.leaf T'.leaf 12284 8 8 true := by
  obtain ⟨-, k, -, -, hk, hreach, hc, -⟩ := smallLazy_spec
  have hrun : smallLazy.any (fun k => (k.proc 0).pagetable.any fun r =>
      ((copyinBytes r (k.proc 0).sz r 12284 8).result k.mach).any fun res => res.1.1) = true := by
    decide +kernel
  obtain ⟨r, tf, T, hpt, -, -, hsp, hh⟩ := (hreach.inv smallBoot_boot).live hc
  rw [hk, Option.any_some, hpt, Option.any_some] at hrun
  obtain ⟨⟨⟨ok, bytes⟩, t⟩, hres, rfl⟩ := (Option.any_eq_true _ _).mp hrun
  have hmem := Mem.mk hh hsp
  obtain ⟨ok', bytes', t', T', hrun', -, -, -, htr, hbytes, -⟩ := (user_copies hmem).1 12284 8
  rw [run_of_result hres] at hrun'
  cases hrun'
  have hlen : bytes.length = 8 := htr.all.mp rfl
  rw [hlen] at htr hbytes
  exact ⟨_, r, T, _, _, _, tf, hmem, bytes, t, T', run_of_result hres, hbytes, htr⟩

end copies

end Xv6
