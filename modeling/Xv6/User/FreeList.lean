/-
  The free list of the allocator.

  `FreeList` says that the headers spell a cycle from `base` in increasing order with a gap after each
  block.  `FreeList.free` and `FreeList.take` are what `free` and `malloc` do to it: the bytes of the
  list change by those of one block, and the search of `free` returns.
-/
import Mathlib.Data.Set.Lattice
import Mathlib.Order.CompletePartialOrder
import Mathlib.Order.Interval.Set.Basic
import Xv6.Lib.Fuel
import Xv6.Lib.Path
import Xv6.User.Umalloc

namespace Xv6.User

open Lib Function List

/-! ## Blocks -/

/-- The bytes of the block at `b`, with its header. -/
def span (size : Nat → Nat) (b : Nat) : Set Nat := Set.Ico b (b + 16 * size b)

def spans (size : Nat → Nat) (bs : List Nat) : Set Nat := { x | ∃ b ∈ bs, x ∈ span size b }

/-- The free list: a cycle from `base` through `bs` in increasing order, with a gap after each block. -/
structure FreeList (base : Nat) (h : Heap) (bs : List Nat) : Prop where
  head : bs.head? = some base
  path : Path h.ptr bs base
  spaced : bs.Pairwise fun a b => a + 16 * h.size a < b
  base_size : h.size base = 0
  pos : ∀ b ∈ bs, b ≠ base → 0 < h.size b
  freep : h.freep ∈ bs

variable {base : Nat} {h h' : Heap} {bs : List Nat}

theorem FreeList.lt (hl : FreeList base h bs) : bs.Pairwise (· < ·) :=
  hl.spaced.imp fun hab => Nat.lt_of_le_of_lt (Nat.le_add_right _ _) hab

theorem FreeList.nodup (hl : FreeList base h bs) : bs.Nodup := hl.lt.imp Nat.ne_of_lt

variable {b bp p q : Nat} {as cs : List Nat}

theorem FreeList.base_le (hl : FreeList base h bs) (hb : b ∈ bs) : base ≤ b := by
  obtain ⟨bs', rfl⟩ := head?_eq_some_iff.mp hl.head
  rcases mem_cons.mp hb with rfl | hb
  · exact le_rfl
  · exact Nat.le_of_lt (rel_of_pairwise_cons hl.lt hb)

theorem FreeList.gap (hl : FreeList base h bs) {a : Nat} (ha : a ∈ bs) (hb : b ∈ bs) (hab : a < b) :
    a + 16 * h.size a < b := by
  have hlt := hl.lt
  have hspaced := hl.spaced
  obtain ⟨as, cs, rfl⟩ := append_of_mem ha
  rcases mem_append.mp hb with hb | hb
  · exact absurd ((pairwise_append.mp hlt).2.2 b hb a mem_cons_self) (by omega)
  · rcases mem_cons.mp hb with rfl | hb
    · exact absurd hab (lt_irrefl b)
    · exact rel_of_pairwise_cons (pairwise_append.mp hspaced).2.1 hb

/-- A byte is in one block only. -/
theorem FreeList.eq_of_mem (hl : FreeList base h bs) {a x : Nat} (ha : a ∈ bs) (hb : b ∈ bs)
    (hxa : x ∈ span h.size a) (hxb : x ∈ span h.size b) : a = b := by
  obtain ⟨hax, hxa⟩ := hxa
  obtain ⟨hbx, hxb⟩ := hxb
  rcases Nat.lt_trichotomy a b with hab | hab | hab
  · have := hl.gap ha hb hab
    omega
  · exact hab
  · have := hl.gap hb ha hab
    omega

theorem spans_append (size : Nat → Nat) (as bs : List Nat) :
    spans size (as ++ bs) = spans size as ∪ spans size bs := by
  ext x
  simp only [spans, mem_append, Set.mem_ofPred_eq, Set.mem_union, or_and_right, exists_or]

theorem spans_cons (size : Nat → Nat) (b : Nat) (bs : List Nat) :
    spans size (b :: bs) = span size b ∪ spans size bs := by
  ext x
  simp only [spans, mem_cons, Set.mem_ofPred_eq, Set.mem_union, or_and_right, exists_or,
    exists_eq_left]

theorem spans_congr {size size' : Nat → Nat} (heq : ∀ b ∈ bs, size' b = size b) :
    spans size' bs = spans size bs := by
  ext x
  constructor
  · rintro ⟨b, hb, hx⟩
    refine ⟨b, hb, ?_⟩
    rwa [span, heq b hb] at hx
  · rintro ⟨b, hb, hx⟩
    refine ⟨b, hb, ?_⟩
    rwa [span, heq b hb]

/-! ## The search of `free` -/

/-- The last element below `bp`. -/
theorem split_below (hnot : bp ∉ bs) (hlow : ∃ b ∈ bs, b < bp) :
    ∃ as p cs, bs = as ++ p :: cs ∧ p < bp ∧ ∀ c ∈ cs, bp < c := by
  induction bs with
  | nil =>
    obtain ⟨b, hb, -⟩ := hlow
    cases hb
  | cons x xs ih =>
    obtain ⟨hx, hnot⟩ := ne_and_not_mem_of_not_mem_cons hnot
    by_cases hxs : ∃ b ∈ xs, b < bp
    · obtain ⟨as, p, cs, rfl, hp, hcs⟩ := ih hnot hxs
      exact ⟨x :: as, p, cs, rfl, hp, hcs⟩
    · obtain ⟨b, hb, hlt⟩ := hlow
      have hbx : b = x := (mem_cons.mp hb).resolve_right fun hb => hxs ⟨b, hb, hlt⟩
      refine ⟨[], x, xs, rfl, hbx ▸ hlt, fun c hc => ?_⟩
      have hne : c ≠ bp := fun hcb => hnot (hcb ▸ hc)
      have hge : ¬ c < bp := fun hcb => hxs ⟨c, hc, hcb⟩
      omega

/-- From a block below `bp` the search goes up to the last such block. -/
theorem search_below {vs : List Nat} (hpath : Path h.ptr vs p) (hlt : (vs ++ [p]).Pairwise (· < ·))
    (hp : p < bp) (hnext : h.ptr p ≤ p ∨ bp < h.ptr p) :
    Returns (fun fuel => h.search bp fuel (vs.headD p)) p := by
  induction vs with
  | nil =>
    refine Returns.succ ((Returns.const p).congr fun fuel => ?_)
    show h.search bp (fuel + 1) p = some p
    rw [Heap.search]
    by_cases hin : bp > p ∧ bp < h.ptr p
    · rw [if_pos hin]
    · rw [if_neg hin, if_pos (by omega)]
  | cons v vs ih =>
    obtain ⟨hv, hlt⟩ := pairwise_cons.mp hlt
    obtain ⟨hptr, hpath⟩ := hpath
    have hbetween : v < h.ptr v ∧ h.ptr v ≤ p := by
      rw [hptr]
      cases vs with
      | nil => exact ⟨hv p (mem_singleton_self p), le_rfl⟩
      | cons w ws =>
        refine ⟨hv w mem_cons_self, Nat.le_of_lt ?_⟩
        exact (pairwise_cons.mp hlt).1 p (mem_append_right ws (mem_singleton_self p))
    refine Returns.succ ((ih hpath hlt).congr fun fuel => ?_)
    show h.search bp (fuel + 1) v = _
    rw [Heap.search, if_neg (by omega), if_neg (by omega), hptr]

/-- From a block above `bp` the search goes round to `base`. -/
theorem search_above {vs : List Nat} (hpath : Path h.ptr vs base) (hlt : vs.Pairwise (· < ·))
    (hvs : ∀ v ∈ vs, bp < v) (hbp : base < bp)
    (hbase : Returns (fun fuel => h.search bp fuel base) p) :
    Returns (fun fuel => h.search bp fuel (vs.headD base)) p := by
  induction vs with
  | nil => exact hbase
  | cons v vs ih =>
    obtain ⟨hv, hlt⟩ := pairwise_cons.mp hlt
    obtain ⟨hptr, hpath⟩ := hpath
    have hbv := hvs v mem_cons_self
    have hback : h.ptr v = base ∨ v < h.ptr v := by
      rw [hptr]
      cases vs with
      | nil => exact Or.inl rfl
      | cons w ws => exact Or.inr (hv w mem_cons_self)
    refine Returns.succ ((ih hpath hlt fun w hw => hvs w (mem_cons_of_mem v hw)).congr
      fun fuel => ?_)
    show h.search bp (fuel + 1) v = _
    rw [Heap.search, if_neg (by omega), if_neg (by omega), hptr]

theorem FreeList.search_returns (hl : FreeList base h (as ++ p :: cs)) (hbp : base < bp)
    (hp : p < bp) (hcs : ∀ c ∈ cs, bp < c) : Returns (fun fuel => h.search bp fuel h.freep) p := by
  obtain ⟨hpas, hpcs⟩ := Path.append_iff.mp hl.path
  obtain ⟨hltas, hltcs, hltac⟩ := pairwise_append.mp hl.lt
  have hbase : as.headD p = base := by
    have hhead := hl.head
    cases as with
    | nil | cons => exact Option.some.inj hhead
  have hnext : h.ptr p ≤ p ∨ bp < h.ptr p := by
    rw [hpcs.1]
    cases cs with
    | nil => exact Or.inl (hl.base_le (mem_append_right as mem_cons_self))
    | cons c cs => exact Or.inr (hcs c mem_cons_self)
  -- from every block of `as` on
  have hbelow : ∀ us vs, as = us ++ vs → Returns (fun fuel => h.search bp fuel (vs.headD p)) p := by
    rintro us vs rfl
    refine search_below (Path.append_iff.mp hpas).2 ?_ hp hnext
    refine pairwise_append.mpr ⟨(pairwise_append.mp hltas).2.1, pairwise_singleton _ _, ?_⟩
    intro v hv q hq
    rw [mem_singleton.mp hq]
    exact hltac v (mem_append_right us hv) p mem_cons_self
  rcases mem_append.mp hl.freep with hf | hf
  · obtain ⟨us, vs, hus⟩ := append_of_mem hf
    exact hbelow us (h.freep :: vs) hus
  · rcases mem_cons.mp hf with hf | hf
    · rw [hf]
      exact hbelow as [] (append_nil as).symm
    · obtain ⟨us, vs, rfl⟩ := append_of_mem hf
      have hround : Returns (fun fuel => h.search bp fuel base) p := by
        rw [← hbase]
        exact hbelow [] as rfl
      exact search_above (Path.append_iff.mp hpcs.2).2
        (pairwise_append.mp (pairwise_cons.mp hltcs).2).2.1
        (fun v hv => hcs v (mem_append_right us hv)) hbp hround

/-! ## Linking a block in -/

/-- After the test on the right: `bp` has size `k` and is followed by `ds`. -/
structure Joined (base : Nat) (h : Heap) (bp : Nat) (cs : List Nat) (k : Nat) (ds : List Nat) : Prop where
  sub : ds ⊆ cs
  path : Path h.ptr ds base
  spaced : ds.Pairwise fun a b => a + 16 * h.size a < b
  after : ∀ d ∈ ds, bp + 16 * k < d
  le : h.size bp ≤ k
  spans : Set.Ico bp (bp + 16 * k) ∪ spans h.size ds = span h.size bp ∪ spans h.size cs

/-- The first half of `link`. -/
def Heap.joinRight (h : Heap) (bp p : Nat) : Heap :=
  if bp + 16 * h.size bp = h.ptr p then
    (h.setSize bp (h.size bp + h.size (h.ptr p))).setPtr bp (h.ptr (h.ptr p))
  else h.setPtr bp (h.ptr p)

theorem joinRight_spec (hl : FreeList base h (as ++ p :: cs)) (hbp : base < bp)
    (hcs : ∀ c ∈ cs, bp + 16 * h.size bp ≤ c)
    (hbound : ∀ k, Set.Ico bp (bp + 16 * k) ⊆ spans h.size cs ∪ span h.size bp → k < 2 ^ 32) :
    ∃ k ds, Joined base h bp cs k ds ∧
      h.joinRight bp p = { h with
        ptr := update h.ptr bp (ds.headD base), size := update h.size bp k } := by
  have hpcs := (Path.append_iff.mp hl.path).2
  have hspaced := (pairwise_cons.mp (pairwise_append.mp hl.spaced).2.1).2
  by_cases hjoin : bp + 16 * h.size bp = h.ptr p
  · cases cs with
    | nil =>
      -- `p` is the last block and points to `base`, which lies below
      rw [hpcs.1] at hjoin
      simp only [headD_nil] at hjoin
      omega
    | cons r ds =>
      have hr : h.ptr p = r := hpcs.1
      obtain ⟨hrd, hds⟩ := pairwise_cons.mp hspaced
      have hspans : Set.Ico bp (bp + 16 * (h.size bp + h.size r)) ∪ spans h.size ds =
          span h.size bp ∪ spans h.size (r :: ds) := by
        rw [spans_cons, ← Set.union_assoc]
        congr 1
        ext x
        simp only [span, Set.mem_Ico, Set.mem_union]
        omega
      have hk : h.size bp + h.size r < 2 ^ 32 := by
        refine hbound _ ?_
        rw [Set.union_comm, ← hspans]
        exact Set.subset_union_left
      refine ⟨h.size bp + h.size r, ds,
        ⟨subset_cons_self r ds, hpcs.2.2, hds, fun d hd => ?_, Nat.le_add_right _ _, hspans⟩, ?_⟩
      · have := hrd d hd
        omega
      · rw [Heap.joinRight, if_pos hjoin, hr, hpcs.2.1]
        unfold Heap.setSize Heap.setPtr
        rw [Nat.mod_eq_of_lt hk]
  · refine ⟨h.size bp, cs, ⟨fun _ hc => hc, hpcs.2, hspaced, fun d hd => ?_, le_rfl, rfl⟩, ?_⟩
    · cases cs with
      | nil => cases hd
      | cons r cs =>
        have hr : h.ptr p = r := hpcs.1
        have hle := hcs r mem_cons_self
        rcases mem_cons.mp hd with rfl | hd
        · omega
        · have := rel_of_pairwise_cons hspaced hd
          omega
    · rw [Heap.joinRight, if_neg hjoin, hpcs.1, update_eq_self]
      rfl

theorem link_eq (h : Heap) (bp p : Nat) :
    h.link bp p =
      let h := h.joinRight bp p
      let h :=
        if p + 16 * h.size p = bp then
          (h.setSize p (h.size p + h.size bp)).setPtr p (h.ptr bp)
        else h.setPtr p bp
      { h with freep := p } := rfl

/-- A list whose part up to `p` is that of another one, but for what `p` points to and its size. -/
theorem FreeList.retail {ds : List Nat} (hl : FreeList base h (as ++ p :: cs))
    (hfreep : h'.freep = p) (has : ∀ a ∈ as, h'.ptr a = h.ptr a ∧ h'.size a = h.size a)
    (hbase : h'.size base = 0) (hpath : Path h'.ptr (p :: ds) base)
    (hspaced : (p :: ds).Pairwise fun a b => a + 16 * h'.size a < b)
    (hpos : ∀ b ∈ p :: ds, b ≠ base → 0 < h'.size b) : FreeList base h' (as ++ p :: ds) := by
  obtain ⟨hspas, -, hsp⟩ := pairwise_append.mp hl.spaced
  refine ⟨?_, ?_, ?_, hbase, fun b hb hne => ?_, ?_⟩
  · have hhead := hl.head
    cases as with
    | nil | cons => exact hhead
  · refine Path.append_iff.mpr ⟨?_, hpath⟩
    exact (Path.append_iff.mp hl.path).1.frame fun a ha => (has a ha).1
  · refine pairwise_append.mpr ⟨?_, hspaced, fun a ha b hb => ?_⟩
    · exact hspas.imp_of_mem fun ha _ hab => by rwa [(has _ ha).2]
    · rw [(has a ha).2]
      have hap := hsp a ha p mem_cons_self
      rcases mem_cons.mp hb with rfl | hb
      · exact hap
      · have := (pairwise_cons.mp hspaced).1 b hb
        omega
  · rcases mem_append.mp hb with ha | hb
    · rw [(has b ha).2]
      exact hl.pos b (mem_append_left _ ha) hne
    · exact hpos b hb hne
  · rw [hfreep]
    exact mem_append_right as mem_cons_self

/-- What `free` does where it has found the place of the block. -/
theorem FreeList.link (hl : FreeList base h (as ++ p :: cs)) (hbp : base < bp)
    (hp : p + 16 * h.size p ≤ bp) (hlt : p < bp) (hcs : ∀ c ∈ cs, bp + 16 * h.size bp ≤ c)
    (hpos : 0 < h.size bp)
    (hbound : ∀ a k, Set.Ico a (a + 16 * k) ⊆ spans h.size (as ++ p :: cs) ∪ span h.size bp →
      k < 2 ^ 32) :
    ∃ bs, FreeList base (h.link bp p) bs ∧
      spans (h.link bp p).size bs = spans h.size (as ++ p :: cs) ∪ span h.size bp ∧
      ∀ x, x ≠ p → x ≠ bp → (h.link bp p).size x = h.size x := by
  have hltas : ∀ a ∈ as, a < p := fun a ha =>
    (pairwise_append.mp hl.lt).2.2 a ha p mem_cons_self
  obtain ⟨k, ds, hj, heq⟩ := joinRight_spec hl hbp hcs fun k hk => hbound bp k (hk.trans (by
    rw [spans_append, spans_cons]
    refine Set.union_subset_union_left _ ?_
    exact Set.subset_union_of_subset_right Set.subset_union_right _))
  have hltds : ∀ d ∈ ds, bp < d := fun d hd => by
    have := hcs d (hj.sub hd)
    omega
  have hposds : ∀ d ∈ ds, 0 < h.size d := fun d hd => by
    have := hltds d hd
    exact hl.pos d (mem_append_right as (mem_cons_of_mem p (hj.sub hd))) (by omega)
  have hspans : spans h.size (as ++ p :: cs) ∪ span h.size bp =
      spans h.size as ∪ ((span h.size p ∪ Set.Ico bp (bp + 16 * k)) ∪ spans h.size ds) := by
    rw [Set.union_assoc, hj.spans, spans_append, spans_cons]
    ac_rfl
  have hne : p ≠ bp := Nat.ne_of_lt hlt
  have hsizep : (h.joinRight bp p).size p = h.size p := by
    rw [heq]
    exact update_of_ne hne _ _
  have hagree : ∀ x, x ≠ p → x ≠ bp →
      (h.link bp p).ptr x = h.ptr x ∧ (h.link bp p).size x = h.size x := by
    intro x hxp hxb
    rw [link_eq, heq]
    dsimp only
    split <;> simp [Heap.setSize, Heap.setPtr, hxp, hxb]
  -- so that both ends of the list are as they were
  have has : ∀ a ∈ as, (h.link bp p).ptr a = h.ptr a ∧ (h.link bp p).size a = h.size a := by
    intro a ha
    have hap := hltas a ha
    exact hagree a (by omega) (by omega)
  have hds : ∀ d ∈ ds, (h.link bp p).ptr d = h.ptr d ∧ (h.link bp p).size d = h.size d := by
    intro d hd
    have hdb := hltds d hd
    exact hagree d (by omega) (by omega)
  have hpathds : Path (h.link bp p).ptr ds base := hj.path.frame fun d hd => (hds d hd).1
  have hspacedds : ds.Pairwise fun a b => a + 16 * (h.link bp p).size a < b :=
    hj.spaced.imp_of_mem fun hd _ hab => by rwa [(hds _ hd).2]
  have hposds' : ∀ d ∈ ds, 0 < (h.link bp p).size d := by
    intro d hd
    rw [(hds d hd).2]
    exact hposds d hd
  rw [hspans] at hbound ⊢
  by_cases hm : p + 16 * h.size p = bp
  · -- `bp` becomes the end of `p`
    have hspan : span h.size p ∪ Set.Ico bp (bp + 16 * k) = Set.Ico p (p + 16 * (h.size p + k)) := by
      ext x
      simp only [span, Set.mem_Ico, Set.mem_union]
      omega
    have hk : h.size p + k < 2 ^ 32 := by
      refine hbound p _ ?_
      rw [← hspan]
      exact Set.subset_union_of_subset_right Set.subset_union_left _
    have hpb : base ≠ p := by
      rintro rfl
      rw [hl.base_size] at hm
      omega
    obtain ⟨hptr, hsize⟩ : (h.link bp p).ptr p = ds.headD base ∧ (h.link bp p).size p = h.size p + k := by
      rw [link_eq]
      dsimp only
      rw [hsizep, if_pos hm, heq]
      simp only [Heap.setSize, Heap.setPtr, update_self, Nat.mod_eq_of_lt hk, and_self]
    refine ⟨as ++ p :: ds, hl.retail rfl has ?_ ⟨hptr, hpathds⟩
      (pairwise_cons.mpr ⟨fun d hd => ?_, hspacedds⟩) ?_, ?_, fun x hxp hxb => (hagree x hxp hxb).2⟩
    · exact (hagree base hpb (by omega)).2.trans hl.base_size
    · have := hj.after d hd
      omega
    · intro b hb _
      rcases mem_cons.mp hb with rfl | hb
      · omega
      · exact hposds' b hb
    · rw [spans_append, spans_cons, spans_congr fun a ha => (has a ha).2,
        spans_congr fun d hd => (hds d hd).2, span, hsize, hspan]
  · obtain ⟨hptr, hsize, hptrb, hsizeb⟩ : (h.link bp p).ptr p = bp ∧ (h.link bp p).size p = h.size p ∧
        (h.link bp p).ptr bp = ds.headD base ∧ (h.link bp p).size bp = k := by
      rw [link_eq]
      dsimp only
      rw [hsizep, if_neg hm, heq]
      simp [Heap.setPtr, hne, hne.symm]
    refine ⟨as ++ p :: bp :: ds, hl.retail rfl has ?_ ⟨hptr, hptrb, hpathds⟩ (pairwise_cons.mpr
      ⟨fun d hd => ?_, pairwise_cons.mpr ⟨fun d hd => ?_, hspacedds⟩⟩) ?_, ?_,
      fun x hxp hxb => (hagree x hxp hxb).2⟩
    · rcases eq_or_ne base p with rfl | hpb
      · exact hsize.trans hl.base_size
      · exact (hagree base hpb (by omega)).2.trans hl.base_size
    · rcases mem_cons.mp hd with rfl | hd
      · omega
      · have := hltds d hd
        omega
    · rw [hsizeb]
      exact hj.after d hd
    · intro b hb hbne
      rcases mem_cons.mp hb with rfl | hb
      · rw [hsize]
        exact hl.pos b (mem_append_right as mem_cons_self) hbne
      · rcases mem_cons.mp hb with rfl | hb
        · rw [hsizeb]
          exact Nat.lt_of_lt_of_le hpos hj.le
        · exact hposds' b hb
    · rw [spans_append, spans_cons, spans_cons, spans_congr fun a ha => (has a ha).2,
        spans_congr fun d hd => (hds d hd).2, span, hsize, span, hsizeb, Set.union_assoc]
      rfl

/-- `free` returns, and the block is in the list, joined to its neighbours. -/
theorem FreeList.free (hl : FreeList base h bs) (hbp : base < bp) (hpos : 0 < h.size bp)
    (hapart : Disjoint (span h.size bp) (spans h.size bs))
    (hbound : ∀ a k, Set.Ico a (a + 16 * k) ⊆ spans h.size bs ∪ span h.size bp → k < 2 ^ 32) :
    ∃ h' bs', Returns (fun fuel => h.free fuel (bp + 16)) h' ∧ FreeList base h' bs' ∧
      spans h'.size bs' = spans h.size bs ∪ span h.size bp ∧
      ∀ x, x ∉ bs → x ≠ bp → h'.size x = h.size x := by
  -- no byte is in both, so no block starts in the other
  have hout : ∀ b ∈ bs, ∀ x, b ≤ x → x < b + 16 * h.size b → bp ≤ x → ¬ x < bp + 16 * h.size bp :=
    fun b hb x hbx hxb hpx hxp => Set.disjoint_left.mp hapart ⟨hpx, hxp⟩ ⟨b, hb, hbx, hxb⟩
  have hnot : bp ∉ bs := by
    intro hb
    exact hout bp hb bp le_rfl (by omega) le_rfl (by omega)
  have hbase : base ∈ bs := mem_of_head? hl.head
  obtain ⟨as, p, cs, rfl, hp, hcs⟩ := split_below hnot ⟨base, hbase, hbp⟩
  have hmem : p ∈ as ++ p :: cs := mem_append_right as mem_cons_self
  have hend : p + 16 * h.size p ≤ bp := by
    by_contra hlt
    exact hout p hmem bp (by omega) (by omega) le_rfl (by omega)
  have hstart : ∀ c ∈ cs, bp + 16 * h.size bp ≤ c := by
    intro c hc
    have hcm : c ∈ as ++ p :: cs := mem_append_right as (mem_cons_of_mem p hc)
    have hcb := hcs c hc
    have hcpos := hl.pos c hcm (by omega)
    by_contra hlt
    exact hout c hcm c le_rfl (by omega) (by omega) (by omega)
  obtain ⟨bs', hl', hspans, hsize⟩ := hl.link hbp hend hp hstart hpos hbound
  refine ⟨h.link bp p, bs', ?_, hl', hspans, fun x hx hxb => hsize x ?_ hxb⟩
  · exact (hl.search_returns hbp hp hcs).bind (Returns.const _)
  · rintro rfl
    exact hx hmem

/-! ## Taking a block out -/

/-- A whole block. -/
theorem FreeList.unlink {ds : List Nat} (hl : FreeList base h (as ++ q :: p :: ds)) :
    let h' := { h.setPtr q (h.ptr p) with freep := q }
    FreeList base h' (as ++ q :: ds) ∧
      spans h.size (as ++ q :: p :: ds) = spans h'.size (as ++ q :: ds) ∪ span h'.size p ∧
      Disjoint (span h'.size p) (spans h'.size (as ++ q :: ds)) := by
  have hnodup := hl.nodup
  have hpath := (Path.append_iff.mp hl.path).2
  obtain ⟨-, hspaced, -⟩ := pairwise_append.mp hl.spaced
  obtain ⟨-, hq, hne⟩ := nodup_append.mp hnodup
  obtain ⟨hq, hp, -⟩ : q ∉ p :: ds ∧ p ∉ ds ∧ ds.Nodup := by
    rw [nodup_cons, nodup_cons] at hq
    exact hq
  have hptr : ∀ x, x ≠ q → update h.ptr q (h.ptr p) x = h.ptr x :=
    fun x hx => update_of_ne hx _ _
  refine ⟨hl.retail rfl ?_ hl.base_size ⟨?_, ?_⟩ ?_ ?_, ?_, ?_⟩
  · exact fun a ha => ⟨hptr a (hne a ha q mem_cons_self), rfl⟩
  · exact (update_self _ _ _).trans hpath.2.1
  · refine hpath.2.2.frame fun d hd => hptr d ?_
    rintro rfl
    exact hq (mem_cons_of_mem p hd)
  · exact hspaced.sublist (List.Sublist.cons_cons q (sublist_cons_self p ds))
  · intro b hb
    refine hl.pos b (mem_append_right as ?_)
    rcases mem_cons.mp hb with rfl | hb
    · exact mem_cons_self
    · exact mem_cons_of_mem q (mem_cons_of_mem p hb)
  · simp only [spans_append, spans_cons]
    ac_rfl
  · refine Set.disjoint_left.mpr ?_
    rintro x hxp ⟨b, hb, hxb⟩
    have hbs : b ∈ as ++ q :: p :: ds := by
      simp only [mem_append, mem_cons] at hb ⊢
      tauto
    have hps : p ∈ as ++ q :: p :: ds := by simp
    obtain rfl := hl.eq_of_mem hbs hps hxb hxp
    rcases mem_append.mp hb with hb | hb
    · exact hne b hb b (mem_cons_of_mem q mem_cons_self) rfl
    · rcases mem_cons.mp hb with rfl | hb
      · exact hq mem_cons_self
      · exact hp hb

/-- The last `n` headers of a block. -/
theorem FreeList.carve (hl : FreeList base h bs) {n : Nat} (hq : q ∈ bs) (hp : p ∈ bs) (hn : 0 < n)
    (hfit : n < h.size p) (hpb : p ≠ base) {size : Nat → Nat}
    (hsize : size = update (update h.size p (h.size p - n))
      (p + 16 * (h.size p - n)) n) :
    FreeList base ⟨h.ptr, size, q⟩ bs ∧
      spans h.size bs = spans size bs ∪ span size (p + 16 * (h.size p - n)) ∧
      Disjoint (span size (p + 16 * (h.size p - n))) (spans size bs) := by
  -- the new header lies within the block, so it is none of the list
  have hold : ∀ c ∈ bs, c ≠ p → size c = h.size c := by
    intro c hc hcp
    have hne : c ≠ p + 16 * (h.size p - n) := by
      rintro rfl
      have := hl.gap hp hc (by omega)
      omega
    rw [hsize, update_of_ne hne, update_of_ne hcp]
  have hrest : size p = h.size p - n := by
    rw [hsize, update_of_ne (by omega), update_self]
  have hnew : span size (p + 16 * (h.size p - n)) =
      Set.Ico (p + 16 * (h.size p - n)) (p + 16 * h.size p) := by
    rw [span, hsize, update_self]
    congr 1
    omega
  have hle : ∀ c ∈ bs, size c ≤ h.size c := by
    intro c hc
    by_cases hcp : c = p
    · rw [hcp]
      omega
    · rw [hold c hc hcp]
  refine ⟨⟨hl.head, hl.path, ?_, ?_, ?_, hq⟩, ?_, ?_⟩
  · refine hl.spaced.imp_of_mem fun ha _ hab => ?_
    have := hle _ ha
    show _ + 16 * size _ < _
    omega
  · exact (hold base (mem_of_head? hl.head) hpb.symm).trans hl.base_size
  · intro b hb hbb
    show 0 < size b
    by_cases hbp : b = p
    · rw [hbp]
      omega
    · rw [hold b hb hbp]
      exact hl.pos b hb hbb
  · rw [hnew]
    ext x
    constructor
    · rintro ⟨c, hc, hcx, hxc⟩
      by_cases hcp : c = p
      · subst hcp
        by_cases hx : x < c + 16 * (h.size c - n)
        · exact Or.inl ⟨c, hc, hcx, by rw [hrest]; exact hx⟩
        · exact Or.inr ⟨by omega, hxc⟩
      · exact Or.inl ⟨c, hc, hcx, by rw [hold c hc hcp]; exact hxc⟩
    · rintro (⟨c, hc, hcx, hxc⟩ | ⟨hpx, hxp⟩)
      · have := hle c hc
        exact ⟨c, hc, hcx, by omega⟩
      · exact ⟨p, hp, by omega, hxp⟩
  · rw [hnew]
    refine Set.disjoint_left.mpr ?_
    rintro x ⟨hpx, hxp⟩ ⟨c, hc, hcx, hxc⟩
    have hcle := hle c hc
    obtain rfl := hl.eq_of_mem hc hp ⟨hcx, by omega⟩ ⟨by omega, hxp⟩
    omega

/-- `malloc` takes a block, or the end of one, out of the free ones. -/
theorem FreeList.take (hl : FreeList base h bs) {n : Nat} (hq : q ∈ bs) (hqp : h.ptr q = p)
    (hp : p ∈ bs) (hn : 0 < n) (hfit : n ≤ h.size p) (hlt : h.size p < 2 ^ 32) :
    ∃ h' b bs', h.take n q p = (h', b + 16) ∧ FreeList base h' bs' ∧ h'.size b = n ∧
      spans h.size bs = spans h'.size bs' ∪ span h'.size b ∧
      Disjoint (span h'.size b) (spans h'.size bs') ∧
      ∀ x, x ∉ span h.size p → h'.size x = h.size x := by
  have hpb : p ≠ base := by
    rintro rfl
    rw [hl.base_size] at hfit
    omega
  by_cases heq : h.size p = n
  · obtain ⟨as, cs, rfl⟩ := append_of_mem hq
    have hnext := hl.path.next_eq
    cases cs with
    | nil => exact absurd (hqp.symm.trans hnext) hpb
    | cons c ds =>
      obtain rfl : p = c := hqp.symm.trans hnext
      obtain ⟨hl', hspans, hapart⟩ := hl.unlink
      refine ⟨_, p, _, ?_, hl', heq, hspans, hapart, fun _ _ => rfl⟩
      rw [Heap.take, if_pos heq]
  · obtain ⟨hl', hspans, hapart⟩ := hl.carve hq hp hn (by omega) hpb rfl
    refine ⟨_, _, _, ?_, hl', update_self _ _ _, hspans, hapart, fun x hx => ?_⟩
    · rw [Heap.take, if_neg heq]
      simp only [Heap.setSize, update_self, Nat.mod_eq_of_lt (show n < 2 ^ 32 by omega),
        Nat.mod_eq_of_lt (show h.size p - n < 2 ^ 32 by omega)]
    · have hx : ¬ (p ≤ x ∧ x < p + 16 * h.size p) := hx
      dsimp only
      rw [update_of_ne (by omega), update_of_ne (by omega)]

end Xv6.User
