/-
  Runs of a program that uses the allocator.

  `user_heap` says that with regions in increasing order that have less than 2^36 bytes in all, the free
  list stays one cycle in order, the blocks tile what `sbrk` gave, and the loops return.  `size_wraps` is
  what happens with more memory: a free block of 2^32 headers, whose size is not a `uint`.
-/
import Mathlib.Order.Interval.Finset.Nat
import Xv6.User.FreeList

namespace Xv6.User

open Lib Function List

variable {base : Nat} {h h' : Heap} {bs : List Nat}

/-! ## Memory -/

/-- What the program holds. -/
def held (s : State) : Set Nat := { x | ∃ b n, s.live b = some n ∧ x ∈ span s.heap.size b }

/-- The blocks: the free list `bs` and the live ones. -/
structure HeapOk (base : Nat) (s : State) (bs : List Nat) : Prop where
  list : FreeList base s.heap bs
  enough : ∀ b n, s.live b = some n → n + 16 ≤ 16 * s.heap.size b
  live_apart : ∀ b n c m, s.live b = some n → s.live c = some m → b ≠ c →
    Disjoint (span s.heap.size b) (span s.heap.size c)
  free_live : ∀ b n, s.live b = some n → Disjoint (span s.heap.size b) (spans s.heap.size bs)
  cover : obtained s.calls = spans s.heap.size bs ∪ held s

/-- The answers of `sbrk`: regions in increasing order, of less than 2^36 bytes in all. -/
structure Regions (sbrk : List Call → Int → Option Nat) (start : Nat) : Prop where
  above : ∀ calls n a, sbrk calls n = some a → brk start calls ≤ a
  total : ∀ calls n a, sbrk calls n = some a → total calls + n.toNat < 2 ^ 36

structure CallsOk (start : Nat) (calls : List Call) : Prop where
  le : start ≤ brk start calls
  within : ∀ x ∈ obtained calls, start ≤ x ∧ x < brk start calls
  total : total calls < 2 ^ 36

theorem obtained_none (n : Int) (calls : List Call) : obtained ((n, none) :: calls) = obtained calls := by
  ext x
  simp [obtained]

theorem obtained_some (n : Int) (a : Nat) (calls : List Call) :
    obtained ((n, some a) :: calls) = obtained calls ∪ Set.Ico a (a + n.toNat) := by
  ext x
  simp only [obtained, mem_cons, Prod.mk.injEq, Option.some.injEq, Set.mem_ofPred_eq,
    or_and_right, exists_or]
  rw [or_comm]
  refine or_congr Iff.rfl ⟨?_, fun hx => ⟨n, a, ⟨rfl, rfl⟩, hx⟩⟩
  rintro ⟨m, c, ⟨rfl, rfl⟩, hx⟩
  exact hx

variable {n a b : Nat}

namespace CallsOk

variable {start : Nat} {calls : List Call}

theorem failed (hc : CallsOk start calls) (n : Int) : CallsOk start ((n, none) :: calls) := by
  refine ⟨hc.le, ?_, hc.total⟩
  rw [obtained_none]
  exact hc.within

theorem grown (hc : CallsOk start calls) {n : Int} (ha : brk start calls ≤ a)
    (htotal : User.total calls + n.toNat < 2 ^ 36) : CallsOk start ((n, some a) :: calls) := by
  have hle := hc.le
  refine ⟨?_, ?_, htotal⟩
  · show start ≤ a + n.toNat
    omega
  · intro x hx
    show start ≤ x ∧ x < a + n.toNat
    rw [obtained_some] at hx
    rcases hx with hx | ⟨hax, hxa⟩
    · have := hc.within x hx
      omega
    · omega

end CallsOk

/-- There are at most `total` bytes. -/
theorem card_obtained (calls : List Call) :
    ∃ t : Finset Nat, (t : Set Nat) = obtained calls ∧ t.card ≤ total calls := by
  induction calls with
  | nil => exact ⟨∅, by ext x; simp [obtained], le_rfl⟩
  | cons c calls ih =>
    obtain ⟨t, ht, hcard⟩ := ih
    obtain ⟨n, _ | a⟩ := c
    · exact ⟨t, by rw [obtained_none, ht], hcard⟩
    · refine ⟨t ∪ Finset.Ico a (a + n.toNat), ?_, ?_⟩
      · rw [obtained_some, Finset.coe_union, ht, Finset.coe_Ico]
      · refine (Finset.card_union_le _ _).trans ?_
        rw [Nat.card_Ico, Nat.add_sub_cancel_left]
        exact Nat.add_le_add_right hcard _

/-- So no block has 2^32 headers. -/
theorem CallsOk.size_lt {start : Nat} {calls : List Call} (hc : CallsOk start calls) {k : Nat}
    (hk : Set.Ico a (a + 16 * k) ⊆ obtained calls) : k < 2 ^ 32 := by
  obtain ⟨t, ht, hcard⟩ := card_obtained calls
  have hsub : Finset.Ico a (a + 16 * k) ⊆ t := by
    rw [← Finset.coe_subset, Finset.coe_Ico, ht]
    exact hk
  have hle := Finset.card_le_card hsub
  rw [Nat.card_Ico] at hle
  have := hc.total
  omega

section blocks

variable {s : State}

theorem HeapOk.live_pos (ho : HeapOk base s bs) (hb : s.live b = some n) :
    b ∈ span s.heap.size b := by
  have := ho.enough b n hb
  exact Set.mem_Ico.mpr ⟨le_rfl, by omega⟩

theorem HeapOk.free_subset (ho : HeapOk base s bs) : spans s.heap.size bs ⊆ obtained s.calls := by
  rw [ho.cover]
  exact Set.subset_union_left

theorem HeapOk.live_subset (ho : HeapOk base s bs) (hb : s.live b = some n) :
    span s.heap.size b ⊆ obtained s.calls := by
  rw [ho.cover]
  exact fun x hx => Or.inr ⟨b, n, hb, hx⟩

/-- What lies in a live block is not in the list. -/
theorem HeapOk.not_mem (ho : HeapOk base s bs) {start : Nat} (hc : CallsOk start s.calls)
    (hstart : base < start) (hb : s.live b = some n) (ha : a ∈ span s.heap.size b) : a ∉ bs := by
  intro habs
  have hle := (hc.within a (ho.live_subset hb ha)).1
  have hpos := ho.list.pos a habs (by omega)
  exact Set.disjoint_left.mp (ho.free_live b n hb) ha ⟨a, habs, le_rfl, by omega⟩

theorem held_congr (hspan : ∀ b n, s.live b = some n → span h.size b = span s.heap.size b) :
    held { s with heap := h } = held s := by
  ext x
  refine exists₂_congr fun b n => and_congr_right fun hb => ?_
  dsimp only
  rw [hspan b n hb]

/-- Only the headers matter. -/
theorem HeapOk.congr (ho : HeapOk base s bs) (hfreep : h.freep = s.heap.freep)
    (hbs : ∀ b ∈ bs, h.ptr b = s.heap.ptr b ∧ h.size b = s.heap.size b)
    (hlive : ∀ b n, s.live b = some n → h.size b = s.heap.size b) :
    HeapOk base { s with heap := h } bs := by
  have hspan : ∀ b n, s.live b = some n → span h.size b = span s.heap.size b := by
    intro b n hb
    rw [span, hlive b n hb, span]
  have hspans : spans h.size bs = spans s.heap.size bs := spans_congr fun b hb => (hbs b hb).2
  have hbase := mem_of_head? ho.list.head
  refine ⟨⟨ho.list.head, ho.list.path.frame fun b hb => (hbs b hb).1, ?_, ?_, ?_, ?_⟩, ?_, ?_, ?_, ?_⟩
  · exact ho.list.spaced.imp_of_mem fun ha _ hab => by
      rwa [(hbs _ ha).2]
  · exact (hbs base hbase).2.trans ho.list.base_size
  · intro b hb hbb
    rw [(hbs b hb).2]
    exact ho.list.pos b hb hbb
  · rw [hfreep]
    exact ho.list.freep
  · intro b n hb
    rw [hlive b n hb]
    exact ho.enough b n hb
  · intro b n c m hb hc hbc
    rw [hspan b n hb, hspan c m hc]
    exact ho.live_apart b n c m hb hc hbc
  · intro b n hb
    rw [hspan b n hb, hspans]
    exact ho.free_live b n hb
  · rw [hspans, held_congr hspan]
    exact ho.cover

/-- The program gets block `b`; all else is free or in its other blocks. -/
theorem HeapOk.of_give (hl : FreeList base s.heap bs) (hn : n + 16 ≤ 16 * s.heap.size b)
    (hb : Disjoint (span s.heap.size b) (spans s.heap.size bs))
    (hlive : ∀ c m, s.live c = some m → m + 16 ≤ 16 * s.heap.size c ∧
      Disjoint (span s.heap.size c) (spans s.heap.size bs) ∧
      Disjoint (span s.heap.size c) (span s.heap.size b))
    (hapart : ∀ c m d k, s.live c = some m → s.live d = some k → c ≠ d →
      Disjoint (span s.heap.size c) (span s.heap.size d))
    (hcover : obtained s.calls = spans s.heap.size bs ∪ (span s.heap.size b ∪ held s)) :
    HeapOk base (s.give b n) bs := by
  have hgive : ∀ c m, (s.give b n).live c = some m → c = b ∧ m = n ∨ s.live c = some m := by
    intro c m hc
    by_cases hcb : c = b
    · subst hcb
      exact Or.inl ⟨rfl, Option.some.inj (hc.symm.trans (update_self _ _ _))⟩
    · exact Or.inr ((update_of_ne hcb _ _).symm.trans hc)
  refine ⟨hl, ?_, ?_, ?_, hcover.trans (congrArg _ ?_)⟩
  · intro c m hc
    rcases hgive c m hc with ⟨rfl, rfl⟩ | hc
    · exact hn
    · exact (hlive c m hc).1
  · intro c m d k hc hd hcd
    rcases hgive c m hc with ⟨rfl, -⟩ | hc'
    · rcases hgive d k hd with ⟨rfl, -⟩ | hd
      · exact absurd rfl hcd
      · exact (hlive d k hd).2.2.symm
    · rcases hgive d k hd with ⟨rfl, -⟩ | hd
      · exact (hlive c m hc').2.2
      · exact hapart c m d k hc' hd hcd
  · intro c m hc
    rcases hgive c m hc with ⟨rfl, -⟩ | hc
    · exact hb
    · exact (hlive c m hc).2.1
  · ext x
    constructor
    · rintro (hx | ⟨c, m, hc, hx⟩)
      · exact ⟨b, n, update_self _ _ _, hx⟩
      · have hcb : c ≠ b := by
          rintro rfl
          exact Set.disjoint_left.mp (hlive c m hc).2.2 hx hx
        exact ⟨c, m, (update_of_ne hcb _ _).trans hc, hx⟩
    · rintro ⟨c, m, hc, hx⟩
      rcases hgive c m hc with ⟨rfl, -⟩ | hc
      · exact Or.inl hx
      · exact Or.inr ⟨c, m, hc, hx⟩

/-- A block goes from the free ones to the program. -/
theorem HeapOk.give (ho : HeapOk base s bs) {bs' : List Nat} {p : Nat} (hl : FreeList base h bs')
    (hn : n + 16 ≤ 16 * h.size b) (hspans : spans s.heap.size bs = spans h.size bs' ∪ span h.size b)
    (hapart : Disjoint (span h.size b) (spans h.size bs')) (hp : p ∈ bs)
    (hsize : ∀ x, x ∉ span s.heap.size p → h.size x = s.heap.size x) :
    HeapOk base (State.give { s with heap := h } b n) bs' := by
  have hsame : ∀ c m, s.live c = some m → h.size c = s.heap.size c := by
    intro c m hc
    refine hsize c fun hcp => ?_
    exact Set.disjoint_left.mp (ho.free_live c m hc) (ho.live_pos hc) ⟨p, hp, hcp⟩
  have hspan : ∀ c m, s.live c = some m → span h.size c = span s.heap.size c := by
    intro c m hc
    rw [span, hsame c m hc, span]
  refine HeapOk.of_give hl hn hapart (fun c m hc => ?_) (fun c m d k hc hd hcd => ?_) ?_
  · have hfree := ho.free_live c m hc
    rw [hspans, ← hspan c m hc] at hfree
    dsimp only
    rw [hsame c m hc]
    exact ⟨ho.enough c m hc, Set.disjoint_union_right.mp hfree⟩
  · dsimp only
    rw [hspan c m hc, hspan d k hd]
    exact ho.live_apart c m d k hc hd hcd
  · rw [held_congr hspan, ← Set.union_assoc, ← hspans]
    exact ho.cover

/-- A block goes from the program to the free ones. -/
theorem HeapOk.reclaim (ho : HeapOk base s bs) {start : Nat} (hc : CallsOk start s.calls)
    (hstart : base < start) {bs' : List Nat} (hb : s.live b = some n) (hl : FreeList base h bs')
    (hspans : spans h.size bs' = spans s.heap.size bs ∪ span s.heap.size b)
    (hsize : ∀ x, x ∉ bs → x ≠ b → h.size x = s.heap.size x) :
    HeapOk base { s with heap := h, live := update s.live b none } bs' := by
  have hlive : ∀ c m, update s.live b none c = some m → c ≠ b ∧ s.live c = some m := by
    intro c m hcm
    by_cases hcb : c = b
    · rw [hcb, update_self] at hcm
      cases hcm
    · exact ⟨hcb, (update_of_ne hcb _ _).symm.trans hcm⟩
  have hsame : ∀ c m, s.live c = some m → c ≠ b → h.size c = s.heap.size c :=
    fun c m hcm hcb => hsize c (ho.not_mem hc hstart hcm (ho.live_pos hcm)) hcb
  have hspan : ∀ c m, s.live c = some m → c ≠ b → span h.size c = span s.heap.size c := by
    intro c m hcm hcb
    rw [span, hsame c m hcm hcb, span]
  refine ⟨hl, ?_, ?_, ?_, ?_⟩
  · intro c m hcm
    obtain ⟨hcb, hcm⟩ := hlive c m hcm
    rw [hsame c m hcm hcb]
    exact ho.enough c m hcm
  · intro c m d k hcm hdk hcd
    obtain ⟨hcb, hcm⟩ := hlive c m hcm
    obtain ⟨hdb, hdk⟩ := hlive d k hdk
    rw [hspan c m hcm hcb, hspan d k hdk hdb]
    exact ho.live_apart c m d k hcm hdk hcd
  · intro c m hcm
    obtain ⟨hcb, hcm⟩ := hlive c m hcm
    rw [hspan c m hcm hcb, hspans]
    exact Set.disjoint_union_right.mpr ⟨ho.free_live c m hcm, ho.live_apart c m b n hcm hb hcb⟩
  · rw [ho.cover, hspans, Set.union_assoc]
    congr 1
    ext x
    constructor
    · rintro ⟨c, m, hcm, hx⟩
      by_cases hcb : c = b
      · exact Or.inl (hcb ▸ hx)
      · refine Or.inr ⟨c, m, (update_of_ne hcb _ _).trans hcm, ?_⟩
        rw [← hspan c m hcm hcb] at hx
        exact hx
    · rintro (hx | ⟨c, m, hcm, hx⟩)
      · exact ⟨b, n, hb, hx⟩
      · obtain ⟨hcb, hcm⟩ := hlive c m hcm
        refine ⟨c, m, hcm, ?_⟩
        rw [← hspan c m hcm hcb]
        exact hx

/-- `free` of a live block. -/
theorem HeapOk.free (ho : HeapOk base s bs) {start : Nat} (hc : CallsOk start s.calls)
    (hstart : base < start) (hb : s.live b = some n) :
    ∃ h bs', Returns (fun fuel => s.heap.free fuel (b + 16)) h ∧
      HeapOk base { s with heap := h, live := update s.live b none } bs' ∧
      span s.heap.size b ⊆ spans h.size bs' := by
  have hle := (hc.within b (ho.live_subset hb (ho.live_pos hb))).1
  have henough := ho.enough b n hb
  obtain ⟨h, bs', hret, hl, hspans, hsize⟩ := ho.list.free (show base < b by omega) (by omega)
    (ho.free_live b n hb) fun a k hk =>
      hc.size_lt (hk.trans (Set.union_subset ho.free_subset (ho.live_subset hb)))
  refine ⟨h, bs', hret, ho.reclaim hc hstart hb hl hspans hsize, ?_⟩
  rw [hspans]
  exact Set.subset_union_right

/-- The program writes into a live block. -/
theorem HeapOk.store (ho : HeapOk base s bs) {start : Nat} (hc : CallsOk start s.calls)
    (hstart : base < start) (hb : s.live b = some n) (hba : b < a)
    (hab : a < b + 16 * s.heap.size b) (ptr size : Nat) :
    HeapOk base { s with heap := (s.heap.setPtr a ptr).setSize a size } bs := by
  have ha : a ∈ span s.heap.size b := ⟨Nat.le_of_lt hba, hab⟩
  have hne : ∀ c ∈ bs, c ≠ a := by
    rintro c hcm rfl
    exact ho.not_mem hc hstart hb ha hcm
  refine ho.congr rfl (fun c hcm => ⟨?_, ?_⟩) fun c m hcm => ?_
  · exact update_of_ne (hne c hcm) _ _
  · exact update_of_ne (hne c hcm) _ _
  · refine update_of_ne ?_ _ _
    rintro rfl
    exact Set.disjoint_left.mp (ho.live_apart b n c m hb hcm (Nat.ne_of_lt hba)) ha (ho.live_pos hcm)

end blocks

/-! ## `morecore` -/

/-- A free block covers every run of free bytes. -/
theorem FreeList.fits (hl : FreeList base h bs) (hn : 0 < n)
    (ha : Set.Ico a (a + 16 * n) ⊆ spans h.size bs) : ∃ p ∈ bs, n ≤ h.size p := by
  obtain ⟨p, hp, hpa, hap⟩ := ha ⟨le_rfl, by omega⟩
  refine ⟨p, hp, ?_⟩
  by_contra hlt
  -- the byte after the block is free, but no block starts there
  obtain ⟨q, hq, hqe, heq⟩ := ha (a := p + 16 * h.size p) ⟨by omega, by omega⟩
  rcases Nat.lt_trichotomy p q with hpq | hpq | hpq
  · have := hl.gap hp hq hpq
    omega
  · subst hpq
    omega
  · have := hl.gap hq hp hpq
    omega

theorem toInt_toNat {nu : Nat} (hnu : nu ≤ 2 ^ 26 + 1) : (toInt (nu * 16)).toNat = nu * 16 := by
  have hval : (BitVec.ofNat 32 (nu * 16)).toNat = nu * 16 := by
    rw [BitVec.toNat_ofNat, Nat.mod_eq_of_lt (by omega)]
  rw [toInt, BitVec.toInt_eq_toNat_of_lt (by omega), hval, Int.toNat_natCast]

section search

variable {sbrk : List Call → Int → Option Nat} {start : Nat} {s : State}

/-- What a call leaves for the rest of `malloc`. -/
structure Grown (base start : Nat) (s s' : State) (bs : List Nat) : Prop where
  ok : HeapOk base s' bs
  calls : CallsOk start s'.calls
  live : s'.live = s.live

/-- A new region is one more block, for as long as it takes to free it. -/
theorem HeapOk.region (ho : HeapOk base s bs) {n : Int} (hsize : 16 * s.heap.size a = n.toNat)
    (hpos : 0 < s.heap.size a) (hnew : Disjoint (span s.heap.size a) (obtained s.calls)) :
    HeapOk base (State.give { s with calls := (n, some a) :: s.calls } a 0) bs := by
  refine HeapOk.of_give ho.list ?_ (hnew.mono_right ho.free_subset) (fun c m hc => ?_) ho.live_apart ?_
  · dsimp only
    omega
  · exact ⟨ho.enough c m hc, ho.free_live c m hc, (hnew.mono_right (ho.live_subset hc)).symm⟩
  · show obtained ((n, some a) :: s.calls) = _ ∪ (Set.Ico a (a + 16 * s.heap.size a) ∪ held s)
    rw [obtained_some, ho.cover, hsize, Set.union_assoc, Set.union_comm (held s)]

theorem HeapOk.morecore (ho : HeapOk base s bs) (hc : CallsOk start s.calls)
    (hsbrk : Regions sbrk start) (hbase : 0 < base) (hstart : base < start) (hn : 0 < n)
    (hnle : n ≤ 2 ^ 26 + 1) :
    ∃ s' r bs', Returns (fun fuel => morecore sbrk s fuel n) (s', r) ∧ Grown base start s s' bs' ∧
      (r = 0 ∨ r = s'.heap.freep ∧ r ≠ 0 ∧ ∃ p ∈ bs', n ≤ s'.heap.size p) := by
  obtain ⟨nu, hnu, hge, hle⟩ : ∃ nu, (if n < 4096 then 4096 else n) = nu ∧ n ≤ nu ∧ nu ≤ 2 ^ 26 + 1 := by
    refine ⟨_, rfl, ?_⟩
    split <;> omega
  have hbytes := toInt_toNat hle
  cases ha : sbrk s.calls (toInt (nu * 16)) with
  | none =>
    refine ⟨{ s with calls := (toInt (nu * 16), none) :: s.calls }, 0, bs, ?_, ⟨?_, hc.failed _, rfl⟩,
      Or.inl rfl⟩
    · refine (Returns.const _).congr fun fuel => ?_
      simp only [User.morecore, hnu, ha]
    · refine ⟨ho.list, ho.enough, ho.live_apart, ho.free_live, ?_⟩
      rw [obtained_none]
      exact ho.cover
  | some a =>
    have habove := hsbrk.above _ _ _ ha
    have hgrown := hc.grown habove (hsbrk.total _ _ _ ha)
    -- the region lies above everything
    have hout : ∀ x ∈ obtained s.calls, x < a := fun x hx =>
      Nat.lt_of_lt_of_le (hc.within x hx).2 habove
    have hfresh : ∀ b ∈ bs, b ≠ a := by
      rintro b hb rfl
      have hpos := ho.list.pos b hb (by have := hc.le; omega)
      exact lt_irrefl b (hout b (ho.free_subset ⟨b, hb, le_rfl, by omega⟩))
    have hlive : s.live a = none := by
      cases hla : s.live a with
      | none => rfl
      | some m => exact absurd (hout a (ho.live_subset hla (ho.live_pos hla))) (lt_irrefl a)
    have hself : (s.heap.setSize a nu).size a = nu := by
      show update s.heap.size a (nu % 2 ^ 32) a = nu
      rw [update_self, Nat.mod_eq_of_lt (by omega)]
    have hok := ho.congr (h := s.heap.setSize a nu) rfl
      (fun b hb => ⟨rfl, update_of_ne (hfresh b hb) _ _⟩) fun b m hb => by
        refine update_of_ne ?_ _ _
        rintro rfl
        rw [hlive] at hb
        cases hb
    have hreg := hok.region (n := toInt (nu * 16)) (by dsimp only; rw [hself]; omega)
      (by dsimp only; rw [hself]; omega) (Set.disjoint_left.mpr fun x hx hxo => by
        have := hout x hxo
        have := hx.1
        omega)
    obtain ⟨h', bs', hret, hok', hsub⟩ := hreg.free hgrown hstart (update_self _ _ _)
    have hback : update (update s.live a (some 0)) a none = s.live := by
      rw [update_idem, ← hlive, update_eq_self]
    have hok'' : HeapOk base ⟨h', (toInt (nu * 16), some a) :: s.calls, s.live⟩ bs' := by
      rw [← hback]
      exact hok'
    refine ⟨⟨h', (toInt (nu * 16), some a) :: s.calls, s.live⟩, h'.freep, bs', ?_, ⟨hok'', hgrown, rfl⟩,
      Or.inr ⟨rfl, ?_, ?_⟩⟩
    · refine (hret.bind (g := fun _ h => some (State.mk h _ s.live, h.freep))
        (Returns.const _)).congr fun fuel => ?_
      simp only [User.morecore, hnu, ha]
      rfl
    · have := hok''.list.base_le hok''.list.freep
      dsimp only at this
      omega
    · refine hok''.list.fits hn (a := a) (Set.Subset.trans ?_ hsub)
      refine Set.Ico_subset_Ico_right ?_
      show a + 16 * n ≤ a + 16 * (s.heap.setSize a nu).size a
      omega

/-! ## `malloc` -/

/-- What the loop does where it has come back to `freep`. -/
def grow (sbrk : List Call → Int → Option Nat) (n : Nat) (s : State) (fuel : Nat) :
    Option (State × Nat) :=
  (morecore sbrk s fuel n).bind fun (s, p) =>
    if p = 0 then some (s, 0) else mallocLoop sbrk n fuel s p (s.heap.ptr p)

/-- Once round the list: the loop takes the first block that fits, or asks for more memory. -/
theorem scan (sbrk : List Call → Int → Option Nat) {q : Nat} {vs : List Nat}
    (hpath : Path s.heap.ptr (q :: vs) s.heap.freep) (hvs : s.heap.freep ∉ vs) :
    (∃ q' ∈ q :: vs, ∃ p ∈ s.heap.freep :: vs, s.heap.ptr q' = p ∧ n ≤ s.heap.size p ∧
      Returns (fun fuel => mallocLoop sbrk n fuel s q (s.heap.ptr q))
        ({ s with heap := (s.heap.take n q' p).1 }, (s.heap.take n q' p).2)) ∨
    (∀ p ∈ s.heap.freep :: vs, s.heap.size p < n) ∧ ∀ r, Returns (grow sbrk n s) r →
      Returns (fun fuel => mallocLoop sbrk n fuel s q (s.heap.ptr q)) r := by
  induction vs generalizing q with
  | nil =>
    have hp : s.heap.ptr q = s.heap.freep := hpath.1
    by_cases hfit : n ≤ s.heap.size s.heap.freep
    · refine Or.inl ⟨q, mem_cons_self, _, mem_cons_self, hp, hfit, Returns.succ ?_⟩
      refine (Returns.const _).congr fun fuel => ?_
      rw [hp, mallocLoop, if_pos hfit]
    · refine Or.inr ⟨?_, fun r hr => Returns.succ (hr.congr fun fuel => ?_)⟩
      · intro p hpm
        rw [mem_singleton.mp hpm]
        omega
      · rw [hp, mallocLoop, if_neg hfit, if_pos rfl]
        rfl
  | cons v vs ih =>
    have hp : s.heap.ptr q = v := hpath.1
    obtain ⟨hne, hvs⟩ := ne_and_not_mem_of_not_mem_cons hvs
    by_cases hfit : n ≤ s.heap.size v
    · refine Or.inl ⟨q, mem_cons_self, v, mem_cons_of_mem _ mem_cons_self, hp, hfit,
        Returns.succ ?_⟩
      refine (Returns.const _).congr fun fuel => ?_
      rw [hp, mallocLoop, if_pos hfit]
    · have hstep : ∀ fuel, mallocLoop sbrk n (fuel + 1) s q (s.heap.ptr q) =
          mallocLoop sbrk n fuel s v (s.heap.ptr v) := by
        intro fuel
        rw [hp, mallocLoop, if_neg hfit, if_neg hne.symm]
      rcases ih hpath.2 hvs with ⟨q', hq', p, hpm, hqp, hn, hret⟩ | ⟨hsmall, hgrow⟩
      · refine Or.inl ⟨q', mem_cons_of_mem q hq', p, ?_, hqp, hn, Returns.succ (hret.congr hstep)⟩
        rcases mem_cons.mp hpm with hpf | hpm
        · exact hpf ▸ mem_cons_self
        · exact mem_cons_of_mem _ (mem_cons_of_mem v hpm)
      · refine Or.inr ⟨fun p hpm => ?_, fun r hr => Returns.succ ((hgrow r hr).congr hstep)⟩
        rcases mem_cons.mp hpm with hpf | hpm
        · exact hsmall p (hpf ▸ mem_cons_self)
        · rcases mem_cons.mp hpm with rfl | hpm
          · omega
          · exact hsmall p (mem_cons_of_mem _ hpm)

/-- What `malloc` returns: a block of the program, or 0. -/
def Given (base start n : Nat) (r : State × Nat) : Prop :=
  CallsOk start r.1.calls ∧
    (r.2 = 0 ∧ (∃ bs, HeapOk base r.1 bs) ∨
      ∃ b bs, r.2 = b + 16 ∧ HeapOk base (r.1.give b n) bs)

/-- The search from `freep` on, in a list that may have no block that fits. -/
theorem HeapOk.scan (sbrk : List Call → Int → Option Nat) (ho : HeapOk base s bs)
    (hc : CallsOk start s.calls) {m : Nat} (hm : 0 < m) (hnm : n + 16 ≤ 16 * m) :
    (∃ r, Given base start n r ∧
      Returns (fun fuel => mallocLoop sbrk m fuel s s.heap.freep (s.heap.ptr s.heap.freep)) r) ∨
    (∀ p ∈ bs, s.heap.size p < m) ∧ ∀ r, Returns (grow sbrk m s) r →
      Returns (fun fuel => mallocLoop sbrk m fuel s s.heap.freep (s.heap.ptr s.heap.freep)) r := by
  obtain ⟨as, cs, hbs⟩ := append_of_mem ho.list.freep
  have hmem : ∀ x, x ∈ s.heap.freep :: (cs ++ as) ↔ x ∈ bs := by
    intro x
    rw [hbs]
    simp only [mem_cons, mem_append]
    tauto
  have hpath : Path s.heap.ptr (s.heap.freep :: (cs ++ as)) s.heap.freep := by
    have h1 := ho.list.path
    have h2 := ho.list.head
    rw [hbs] at h1 h2
    exact h1.rotate h2
  have hnot : s.heap.freep ∉ cs ++ as := by
    have hnodup := ho.list.nodup
    rw [hbs, nodup_middle, nodup_cons] at hnodup
    intro hin
    exact hnodup.1 (mem_append.mpr (mem_append.mp hin).symm)
  rcases User.scan sbrk hpath hnot with ⟨q, hq, p, hp, hqp, hfit, hret⟩ | ⟨hsmall, hgrow⟩
  · have hp := (hmem p).mp hp
    obtain ⟨h', b, bs', htake, hl', hb, hspans, hapart, hsize⟩ := ho.list.take ((hmem q).mp hq) hqp hp hm
      hfit (hc.size_lt fun x hx => ho.free_subset ⟨p, hp, hx⟩)
    rw [htake] at hret
    refine Or.inl ⟨_, ⟨hc, Or.inr ⟨b, bs', rfl, ?_⟩⟩, hret⟩
    exact ho.give hl' (by rw [hb]; exact hnm) hspans hapart hp hsize
  · exact Or.inr ⟨fun p hp => hsmall p ((hmem p).mpr hp), hgrow⟩

theorem HeapOk.loop (ho : HeapOk base s bs) (hc : CallsOk start s.calls)
    (hsbrk : Regions sbrk start) (hbase : 0 < base) (hstart : base < start) {m : Nat} (hm : 0 < m)
    (hnm : n + 16 ≤ 16 * m) (hle : m ≤ 2 ^ 26 + 1) :
    ∃ r, Given base start n r ∧
      Returns (fun fuel => mallocLoop sbrk m fuel s s.heap.freep (s.heap.ptr s.heap.freep)) r := by
  rcases ho.scan sbrk hc hm hnm with hdone | ⟨-, hgrow⟩
  · exact hdone
  · obtain ⟨s', p, bs', hret, hg, hp⟩ := ho.morecore hc hsbrk hbase hstart hm hle
    rcases hp with rfl | ⟨rfl, hne, q, hq, hfit⟩
    · exact ⟨(s', 0), ⟨hg.calls, Or.inl ⟨rfl, bs', hg.ok⟩⟩, hgrow _ (hret.bind (Returns.const _))⟩
    · -- the second time round there is a block that fits
      rcases hg.ok.scan sbrk hg.calls hm hnm with ⟨r, hr, hloop⟩ | ⟨hsmall, -⟩
      · refine ⟨r, hr, hgrow r (hret.bind (hloop.congr fun fuel => ?_))⟩
        exact if_neg hne
      · have := hsmall q hq
        omega

/-- Before the first call of `malloc`. -/
def Untouched (s : State) : Prop := s.heap.freep = 0 ∧ s.calls = [] ∧ ∀ b, s.live b = none

theorem start_ok (hbase : 0 < base) (hs : Untouched s ∨ ∃ bs, HeapOk base s bs) :
    ∃ bs, HeapOk base (s.start base) bs := by
  rcases hs with ⟨hfreep, hcalls, hlive⟩ | ⟨bs, ho⟩
  · have hnone : ∀ b n, s.live b ≠ some n := by
      intro b n hb
      rw [hlive b] at hb
      cases hb
    rw [State.start, if_pos hfreep]
    refine ⟨[base], ⟨rfl, ⟨?_, trivial⟩, pairwise_singleton _ _, ?_, ?_, ?_⟩, ?_, ?_, ?_, ?_⟩
    · exact update_self _ _ _
    · exact update_self _ _ _
    · intro b hb hne
      exact absurd (mem_singleton.mp hb) hne
    · exact mem_singleton_self base
    · exact fun b n hb => absurd hb (hnone b n)
    · exact fun b n _ _ hb => absurd hb (hnone b n)
    · exact fun b n hb => absurd hb (hnone b n)
    · rw [hcalls]
      ext x
      constructor
      · rintro ⟨n, a, ha, -⟩
        cases ha
      · rintro (⟨b, hb, hbx, hxb⟩ | ⟨b, n, hb, -⟩)
        · rw [mem_singleton.mp hb] at hbx hxb
          have hzero : update s.heap.size base (0 % 2 ^ 32) base = 0 := update_self _ _ _
          change x < base + 16 * update s.heap.size base (0 % 2 ^ 32) base at hxb
          omega
        · exact absurd hb (hnone b n)
  · have hne : ¬ s.heap.freep = 0 := by
      have := ho.list.base_le ho.list.freep
      omega
    rw [State.start, if_neg hne]
    exact ⟨bs, ho⟩

theorem nunits_spec (hn : n ≤ 2 ^ 30) :
    0 < nunits n ∧ n + 16 ≤ 16 * nunits n ∧ nunits n ≤ 2 ^ 26 + 1 := by
  unfold nunits
  omega

theorem malloc_returns (hs : Untouched s ∨ ∃ bs, HeapOk base s bs) (hc : CallsOk start s.calls)
    (hsbrk : Regions sbrk start) (hbase : 0 < base) (hstart : base < start) (hn : n ≤ 2 ^ 30) :
    ∃ r, Given base start n r ∧ Returns (fun fuel => malloc sbrk base s fuel n) r := by
  obtain ⟨bs, ho⟩ := start_ok hbase hs
  obtain ⟨hpos, henough, hle⟩ := nunits_spec hn
  have hcalls : (s.start base).calls = s.calls := by
    unfold State.start
    split <;> rfl
  exact ho.loop (hcalls ▸ hc) hsbrk hbase hstart hpos henough hle

/-! ## Fuel -/

theorem search_fueled (h : Heap) (bp p : Nat) : Fueled fun fuel => h.search bp fuel p := by
  intro fuel
  induction fuel generalizing p with
  | zero => exact nofun
  | succ fuel ih =>
    intro q hq
    show h.search bp (fuel + 1 + 1) p = some q
    change h.search bp (fuel + 1) p = some q at hq
    rw [Heap.search] at hq ⊢
    split
    · rwa [if_pos (by assumption)] at hq
    · rw [if_neg (by assumption)] at hq
      split
      · rwa [if_pos (by assumption)] at hq
      · rw [if_neg (by assumption)] at hq
        exact ih _ q hq

theorem free_fueled (h : Heap) (p : Nat) : Fueled fun fuel => h.free fuel p :=
  (search_fueled h (p - 16) h.freep).bind fun _ => Fueled.const _

theorem morecore_fueled (s : State) (n : Nat) : Fueled fun fuel => morecore sbrk s fuel n := by
  unfold morecore
  dsimp only
  split
  · exact Fueled.const _
  · exact (free_fueled _ _).bind fun _ => Fueled.const _

theorem mallocLoop_fueled (n : Nat) (s : State) (q p : Nat) :
    Fueled fun fuel => mallocLoop sbrk n fuel s q p := by
  intro fuel
  induction fuel generalizing s q p with
  | zero => exact nofun
  | succ fuel ih =>
    intro r hr
    show mallocLoop sbrk n (fuel + 1 + 1) s q p = some r
    change mallocLoop sbrk n (fuel + 1) s q p = some r at hr
    rw [mallocLoop] at hr ⊢
    split
    · rwa [if_pos (by assumption)] at hr
    · rw [if_neg (by assumption)] at hr
      split
      · rw [if_pos (by assumption)] at hr
        obtain ⟨⟨t, x⟩, hmore, hr⟩ := Option.bind_eq_some_iff.mp hr
        refine Option.bind_eq_some_iff.mpr ⟨(t, x), morecore_fueled s n fuel _ hmore, ?_⟩
        dsimp only at hr ⊢
        split
        · rwa [if_pos (by assumption)] at hr
        · rw [if_neg (by assumption)] at hr
          exact ih _ _ _ r hr
      · rw [if_neg (by assumption)] at hr
        exact ih _ _ _ r hr

/-! ## Runs of the program -/

/-- What holds between the calls. -/
def Sound (base start : Nat) (s : State) : Prop :=
  (Untouched s ∨ ∃ bs, HeapOk base s bs) ∧ CallsOk start s.calls

theorem Sound.malloc (h : Sound base start s) (hsbrk : Regions sbrk start) (hbase : 0 < base)
    (hstart : base < start) (hn : n ≤ 2 ^ 30) :
    ∃ t, Sound base start t ∧ Returns (fun fuel => step sbrk base fuel s (.malloc n)) t := by
  obtain ⟨⟨t, p⟩, ⟨hc, hp⟩, hret⟩ := malloc_returns h.1 h.2 hsbrk hbase hstart hn
  have hstep := (hret.bind (g := fun _ r => some (if r.2 = 0 then r.1 else r.1.give (r.2 - 16) n))
    (Returns.const _)).congr (g := fun fuel => step sbrk base fuel s (.malloc n)) fun fuel => by
      show (if n ≤ 2 ^ 30 then _ else none) = _
      rw [if_pos hn]
  refine ⟨_, ⟨?_, ?_⟩, hstep⟩
  · right
    rcases hp with ⟨hzero, bs, ho⟩ | ⟨b, bs, hb, ho⟩
    · rw [if_pos hzero]
      exact ⟨bs, ho⟩
    · rw [hb]
      exact ⟨bs, ho⟩
  · split
    · exact hc
    · exact hc

theorem Sound.free (sbrk : List Call → Int → Option Nat) (h : Sound base start s)
    (hstart : base < start) (hb : s.live b = some n) :
    ∃ t, Sound base start t ∧ Returns (fun fuel => step sbrk base fuel s (.free (b + 16))) t := by
  obtain ⟨⟨-, -, hnone⟩ | ⟨bs, ho⟩, hc⟩ := h
  · rw [hnone b] at hb
    cases hb
  · obtain ⟨h', bs', hret, ho', -⟩ := ho.free hc hstart hb
    refine ⟨_, ⟨Or.inr ⟨bs', ho'⟩, hc⟩, ?_⟩
    refine (hret.bind (g := fun _ h => some { s with heap := h, live := update s.live b none })
      (Returns.const _)).congr fun fuel => ?_
    simp only [step, Nat.add_sub_cancel, hb]

theorem Sound.step (h : Sound base start s) (hsbrk : Regions sbrk start) (hbase : 0 < base)
    (hstart : base < start) {fuel : Nat} {a : Act} {t : State}
    (hs : step sbrk base fuel s a = some t) : Sound base start t := by
  cases a with
  | malloc n =>
    by_cases hn : n ≤ 2 ^ 30
    · obtain ⟨u, hu, hret⟩ := h.malloc hsbrk hbase hstart hn
      have hfueled : Fueled fun fuel => User.step sbrk base fuel s (.malloc n) := by
        simp only [User.step, if_pos hn]
        exact (mallocLoop_fueled _ _ _ _).bind fun _ => Fueled.const _
      rw [← hret.eq hfueled hs]
      exact hu
    · simp only [User.step, if_neg hn] at hs
      cases hs
  | free p =>
    cases hb : s.live (p - 16) with
    | none =>
      simp only [User.step, hb] at hs
      cases hs
    | some n =>
      obtain ⟨u, hu, hret⟩ := h.free sbrk hstart hb
      have hfueled : Fueled fun fuel => User.step sbrk base fuel s (.free p) := by
        simp only [User.step, hb]
        exact (free_fueled _ _).bind fun _ => Fueled.const _
      rw [← hret.eq hfueled hs]
      exact hu
  | store b a ptr size =>
    cases hb : s.live b with
    | none =>
      simp only [User.step, hb] at hs
      cases hs
    | some n =>
      by_cases hin : b < a ∧ a < b + 16 * s.heap.size b
      · simp only [User.step, hb, if_pos hin] at hs
        cases hs
        rcases h.1 with ⟨-, -, hnone⟩ | ⟨bs, ho⟩
        · rw [hnone] at hb
          cases hb
        · exact ⟨Or.inr ⟨bs, ho.store h.2 hstart hb hin.1 hin.2 ptr size⟩, h.2⟩
      · simp only [User.step, hb, if_neg hin] at hs
        cases hs

theorem Sound.run (hsbrk : Regions sbrk start) (hbase : 0 < base) (hstart : base < start)
    {fuel : Nat} {acts : List Act} {t : State} (h : Sound base start s)
    (hs : run sbrk base fuel s acts = some t) : Sound base start t := by
  induction acts generalizing s with
  | nil =>
    cases hs
    exact h
  | cons a acts ih =>
    obtain ⟨u, hu, hs⟩ := Option.bind_eq_some_iff.mp hs
    exact ih (h.step hsbrk hbase hstart hu) hs

end search

/-- In every state of every run, before the first call and after it: the free list is a cycle through
    `base` in increasing order with a gap after each block, the live blocks are as large as asked for,
    the blocks do not overlap and are all that `sbrk` gave; and every `malloc` and `free` returns. -/
theorem user_heap (sbrk : List Call → Int → Option Nat) (base start : Nat) (hbase : 0 < base)
    (hstart : base < start) (hsbrk : Regions sbrk start) (ptr size : Nat → Nat) (fuel : Nat)
    (acts : List Act) (s : State)
    (hrun : run sbrk base fuel (State.init ptr size) acts = some s) :
    (Untouched s ∨ ∃ bs, HeapOk base s bs) ∧
    (∀ n ≤ 2 ^ 30, ∃ fuel t, step sbrk base fuel s (.malloc n) = some t) ∧
    (∀ b n, s.live b = some n → ∃ fuel t, step sbrk base fuel s (.free (b + 16)) = some t) := by
  have hinit : Sound base start (State.init ptr size) := by
    refine ⟨Or.inl ⟨rfl, rfl, fun _ => rfl⟩, le_rfl, ?_, Nat.two_pow_pos 36⟩
    rintro x ⟨n, a, ha, -⟩
    cases ha
  have hsound := hinit.run hsbrk hbase hstart hrun
  refine ⟨hsound.1, fun n hn => ?_, fun b n hb => ?_⟩
  · obtain ⟨t, -, k, hk⟩ := hsound.malloc hsbrk hbase hstart hn
    exact ⟨k, t, hk k le_rfl⟩
  · obtain ⟨t, -, k, hk⟩ := hsound.free sbrk hstart hb
    exact ⟨k, t, hk k le_rfl⟩

/-- Adjacent regions from address 4096 on, for as long as there is memory. -/
def growing (limit : Nat) (calls : List Call) (n : Int) : Option Nat :=
  if total calls + n.toNat < limit then some (brk 4096 calls) else none

theorem growing_regions : Regions (growing (2 ^ 36)) 4096 := by
  constructor
  · intro calls n a ha
    unfold growing at ha
    split at ha
    · exact Nat.le_of_eq (Option.some.inj ha)
    · cases ha
  · intro calls n a ha
    unfold growing at ha
    split at ha
    · assumption
    · cases ha

/-- Two blocks are allocated and the first is freed again. -/
theorem user_heap_two :
    ∃ s, run (growing (2 ^ 36)) 2048 8 (State.init (fun _ => 0) fun _ => 0)
        [.malloc 100, .malloc 24, .free (4096 + 65536 - 128 + 16)] = some s ∧
      s.live (4096 + 65536 - 176) = some 24 ∧ (Untouched s ∨ ∃ bs, HeapOk 2048 s bs) := by
  have hlive : (run (growing (2 ^ 36)) 2048 8 (State.init (fun _ => 0) fun _ => 0)
      [.malloc 100, .malloc 24, .free (4096 + 65536 - 128 + 16)]).map
        (fun s => s.live (4096 + 65536 - 176)) = some (some 24) := by
    decide +kernel
  obtain ⟨s, hs, hb⟩ := Option.map_eq_some_iff.mp hlive
  exact ⟨s, hs, hb, (user_heap _ 2048 4096 (by decide) (by decide) growing_regions _ _ 8 _ s hs).1⟩

/-- 64 blocks of 2^30 bytes, freed from the first on. -/
def wrapping : List Act :=
  replicate 64 (.malloc (2 ^ 30)) ++
    (range 64).map fun i => .free (4096 + i * (2 ^ 30 + 16) + 16)

/-- With more than 2^36 bytes the size of a free block wraps around and memory is lost. -/
theorem size_wraps :
    ∃ s, run (growing (2 ^ 37)) 2048 10 (State.init (fun _ => 0) fun _ => 0) wrapping = some s ∧
      ¬ Untouched s ∧ ∀ bs, ¬ HeapOk 2048 s bs := by
  have hend : (run (growing (2 ^ 37)) 2048 10 (State.init (fun _ => 0) fun _ => 0) wrapping).map
      (fun s => (s.heap.freep, s.heap.ptr 2048, s.heap.size 4096, s.live 5120,
        s.calls.contains (2 ^ 30 + 16, some 4096),
        s.calls.all fun c => decide (4096 ≤ c.2.getD 4096))) =
      some (4096, 4096, 64, none, true, true) := by
    decide +kernel
  obtain ⟨s, hs, hfields⟩ := Option.map_eq_some_iff.mp hend
  simp only [Prod.mk.injEq] at hfields
  obtain ⟨hfreep, hptr, hsize, hlive, hfirst, hall⟩ := hfields
  refine ⟨s, hs, fun hu => ?_, fun bs ho => ?_⟩
  · rw [hu.1] at hfreep
    cases hfreep
  have hmem : 4096 ∈ bs := by
    obtain ⟨cs, rfl⟩ := head?_eq_some_iff.mp ho.list.head
    have hnext := ho.list.path.1
    rw [hptr] at hnext
    cases cs with
    | nil => cases hnext
    | cons c cs =>
      obtain rfl : 4096 = c := hnext
      exact mem_cons_of_mem _ mem_cons_self
  -- the byte after the block was obtained, and is neither free nor in a live block
  have hx : 5120 ∈ obtained s.calls :=
    ⟨_, _, contains_iff_mem.mp hfirst, by decide, by decide⟩
  rw [ho.cover] at hx
  rcases hx with ⟨b, hb, hbx, hxb⟩ | ⟨b, n, hb, hbx, hxb⟩
  · rcases Nat.lt_trichotomy 4096 b with hlt | rfl | hlt
    · have := ho.list.gap hmem hb hlt
      omega
    · omega
    · have := ho.list.gap hb hmem hlt
      omega
  · obtain ⟨m, a, ha, hab, -⟩ := ho.live_subset hb (ho.live_pos hb)
    have hle : 4096 ≤ a := of_decide_eq_true (all_eq_true.mp hall _ ha)
    have hne : b ≠ 5120 := by
      rintro rfl
      rw [hlive] at hb
      cases hb
    refine Set.disjoint_left.mp (ho.free_live b n hb) (ho.live_pos hb) ⟨4096, hmem, by omega, ?_⟩
    omega

end Xv6.User
