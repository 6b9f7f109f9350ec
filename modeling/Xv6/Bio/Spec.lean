/-
  What the buffer cache guarantees to one thread that uses it.

  `CacheInv P X s`: every cached block of the root device has one buffer and its contents are
  valid; a buffer is referenced once if it is locked and once more if its block is in the list `P`
  of pinned blocks; an unlocked buffer agrees with the device unless its block is in `X`.
  Pinned blocks stay cached. `Io.view s b` is what a `bread` of block `b` would find.

  The lemmas `wp_bread`, `wp_modifyData`, `wp_bwrite` and `wp_brelse` are all that the layers
  above know about `bio.c`.
-/
import Xv6.Bio.Model
import Mathlib.Data.Finset.Card
import Mathlib.Data.Fintype.Basic
import Mathlib.Data.Fintype.Card

namespace Xv6

open Lib.Prog List

variable {x : Buf} {t : Io}

namespace Io

/-! ## Updates of one buffer -/

theorem setBuf_buf (s : Io) (i j : Fin NBUF) (x : Buf) :
    (s.setBuf i x).buf j = if j = i then x else s.buf j := rfl

@[simp] theorem setBuf_buf_same (s : Io) (i : Fin NBUF) (x : Buf) :
    (s.setBuf i x).buf i = x := by
  rw [setBuf_buf, if_pos rfl]

theorem setBuf_buf_ne (s : Io) {i j : Fin NBUF} (x : Buf) (h : j ≠ i) :
    (s.setBuf i x).buf j = s.buf j := by
  rw [setBuf_buf, if_neg h]

@[simp] theorem setBuf_disk (s : Io) (i : Fin NBUF) (x : Buf) : (s.setBuf i x).disk = s.disk := rfl

@[simp] theorem setBuf_log (s : Io) (i : Fin NBUF) (x : Buf) : (s.setBuf i x).log = s.log := rfl

@[simp] theorem setBuf_setBuf (s : Io) (i : Fin NBUF) (x y : Buf) :
    (s.setBuf i x).setBuf i y = s.setBuf i y := by
  have : (fun j => if j = i then y else if j = i then x else s.bcache.buf j) =
      fun j => if j = i then y else s.bcache.buf j := by
    funext j
    split <;> rfl
  simp only [setBuf, Bcache.set, this]

@[simp] theorem dropRef_disk (s : Io) (i : Fin NBUF) : (dropRef i s).disk = s.disk := by
  unfold dropRef
  dsimp only
  split <;> rfl

@[simp] theorem dropRef_log (s : Io) (i : Fin NBUF) : (dropRef i s).log = s.log := by
  unfold dropRef
  dsimp only
  split <;> rfl

/-- Splicing the list moves no buffer. -/
theorem dropRef_buf (s : Io) (i j : Fin NBUF) :
    (dropRef i s).buf j =
      if j = i then { s.buf i with refcnt := (s.buf i).refcnt - 1 } else s.buf j := by
  have : ∀ t : Io, ({ t with bcache := t.bcache.moveFront i } : Io).buf j = t.buf j := fun _ => rfl
  unfold dropRef
  dsimp only
  split
  · rw [this, setBuf_buf]
  · rw [setBuf_buf]

theorem mem_lru (s : Io) (i : Fin NBUF) : i ∈ s.bcache.lru :=
  s.bcache.lru_perm.mem_iff.mpr (mem_finRange i)

/-! ## What a `bread` would find -/

/-- The contents of block `b` of the root device as the cache shows them. -/
def view (s : Io) (b : Nat) : Block :=
  match s.bcache.lru.find? fun i => decide ((s.buf i).Is ROOTDEV b) with
  | some i => (s.buf i).data
  | none => s.disk.data b

/-- At most one buffer holds a given block of the root device. -/
def Uniq (s : Io) : Prop :=
  ∀ i j b, (s.buf i).Is ROOTDEV b → (s.buf j).Is ROOTDEV b → i = j

theorem view_of_is {s : Io} (hu : s.Uniq) {i : Fin NBUF} {b : Nat}
    (h : (s.buf i).Is ROOTDEV b) : s.view b = (s.buf i).data := by
  unfold view
  cases hf : s.bcache.lru.find? fun i => decide ((s.buf i).Is ROOTDEV b) with
  | none =>
    have := find?_eq_none.mp hf i (mem_lru s i)
    simp [h] at this
  | some j =>
    have hj : (s.buf j).Is ROOTDEV b := by simpa using find?_some hf
    rw [hu j i b hj h]

theorem view_of_none {s : Io} {b : Nat} (h : ∀ i, ¬ (s.buf i).Is ROOTDEV b) :
    s.view b = s.disk.data b := by
  have hf : (s.bcache.lru.find? fun i => decide ((s.buf i).Is ROOTDEV b)) = none := by
    rw [find?_eq_none]
    intro i _
    simp [h i]
  unfold view
  rw [hf]

/-- Either no buffer holds the block, or the view is that buffer's data. -/
theorem view_cases {s : Io} (hu : s.Uniq) (b : Nat) :
    (∃ i, (s.buf i).Is ROOTDEV b ∧ s.view b = (s.buf i).data) ∨
      (∀ i, ¬ (s.buf i).Is ROOTDEV b) ∧ s.view b = s.disk.data b := by
  by_cases h : ∃ i, (s.buf i).Is ROOTDEV b
  · obtain ⟨i, hi⟩ := h
    exact Or.inl ⟨i, hi, view_of_is hu hi⟩
  · have h' : ∀ i, ¬ (s.buf i).Is ROOTDEV b := fun i hi => h ⟨i, hi⟩
    exact Or.inr ⟨h', view_of_none h'⟩

/-- Unlocked valid buffers agree with the device, except for the blocks in `X`. -/
def Coherent (X : Nat → Prop) (s : Io) : Prop :=
  ∀ i b, (s.buf i).Is ROOTDEV b → (s.buf i).valid = true → (s.buf i).lock = none → ¬ X b →
    (s.buf i).data = s.disk.data b

theorem Coherent.mono {X Y : Nat → Prop} {s : Io} (h : s.Coherent X) (hXY : ∀ b, X b → Y b) :
    s.Coherent Y :=
  fun i b hi hv hl hb => h i b hi hv hl (mt (hXY b) hb)

/-- A buffer may change while it is locked or not valid, or if it agrees with the device. -/
theorem Coherent.setBuf {X : Nat → Prop} {s : Io} (h : s.Coherent X) {i : Fin NBUF}
    (hx : x.valid = true → x.lock = none → ∀ b, x.Is ROOTDEV b → ¬ X b → x.data = s.disk.data b) :
    (s.setBuf i x).Coherent X := by
  intro j c hj hv hl hc
  by_cases hji : j = i
  · subst hji
    rw [setBuf_buf_same] at hj hv hl ⊢
    exact hx hv hl c hj hc
  · rw [setBuf_buf_ne _ _ hji] at hj hv hl ⊢
    exact h j c hj hv hl hc

end Io

open Io

/-- References to a buffer from the list of pinned blocks. -/
def Buf.pins (P : List Nat) (x : Buf) : Nat := if x.dev = ROOTDEV ∧ x.blockno ∈ P then 1 else 0

/-- References to a buffer from the thread that holds its lock. -/
def Buf.holds (x : Buf) : Nat := if x.lock = none then 0 else 1

structure CacheInv (P : List Nat) (X : Nat → Prop) (s : Io) : Prop where
  uniq : s.Uniq
  valid : ∀ i b, (s.buf i).Is ROOTDEV b → (s.buf i).valid = true
  refs : ∀ i, (s.buf i).refcnt.toNat = (s.buf i).pins P + (s.buf i).holds
  pinned : ∀ b ∈ P, ∃ i, (s.buf i).Is ROOTDEV b
  coh : s.Coherent X

theorem Buf.pins_of_mem {P : List Nat} {b : Nat} (h : x.Is ROOTDEV b) (hb : b ∈ P) :
    x.pins P = 1 := by
  obtain ⟨h1, rfl⟩ := h
  simp [Buf.pins, h1, hb]

theorem Buf.pins_of_not_mem {P : List Nat} {b : Nat} (h : x.blockno = b) (hb : b ∉ P) :
    x.pins P = 0 := by
  subst h
  simp [Buf.pins, hb]

theorem Buf.pins_le (P : List Nat) (x : Buf) : x.pins P ≤ 1 := by
  unfold Buf.pins
  split <;> omega

theorem Buf.holds_le (x : Buf) : x.holds ≤ 1 := by
  unfold Buf.holds
  split <;> omega

theorem CacheInv.lock_of_refcnt {P : List Nat} {X : Nat → Prop} {s : Io} (h : CacheInv P X s)
    {i : Fin NBUF} (hr : (s.buf i).refcnt = 0) : (s.buf i).lock = none := by
  have := h.refs i
  by_contra hl
  simp only [Buf.holds, if_neg hl] at this
  bv_omega

theorem CacheInv.not_pinned_of_refcnt {P : List Nat} {X : Nat → Prop} {s : Io}
    (h : CacheInv P X s) {i : Fin NBUF} {b : Nat} (hr : (s.buf i).refcnt = 0)
    (hi : (s.buf i).Is ROOTDEV b) : b ∉ P := by
  intro hb
  have := h.refs i
  rw [Buf.pins_of_mem hi hb] at this
  bv_omega

/-- The exempted blocks may grow. -/
theorem CacheInv.weaken {P : List Nat} {X Y : Nat → Prop} {s : Io} (h : CacheInv P X s)
    (hXY : ∀ b, X b → Y b) : CacheInv P Y s :=
  ⟨h.uniq, h.valid, h.refs, h.pinned, h.coh.mono hXY⟩

/-! ## `bread` -/

/-- What `bread` of block `b` by thread `me` returns: a locked buffer with the contents the cache
    showed. Every other buffer, the device and the log are as before, and the buffer was either
    the block's own or one that nobody referenced. -/
structure Got (me b : Nat) (s : Io) (i : Fin NBUF) (t : Io) : Prop where
  is : (t.buf i).Is ROOTDEV b
  lock : (t.buf i).lock = some me
  was : (s.buf i).lock = none
  data : (t.buf i).data = s.view b
  others : ∀ j, j ≠ i → t.buf j = s.buf j
  disk : t.disk = s.disk
  log : t.log = s.log
  src : (s.buf i).Is ROOTDEV b ∨ (s.buf i).refcnt = 0 ∧ ∀ j, ¬ (s.buf j).Is ROOTDEV b

/-- The block is cached, or a buffer is recycled for it, or there is none. -/
theorem bgetScan_cases (dev b : Nat) (s : Io) :
    (∃ i, (s.buf i).Is dev b ∧ bgetScan dev b s =
        .ok i (s.setBuf i { s.buf i with refcnt := (s.buf i).refcnt + 1 })) ∨
      (∀ j, ¬ (s.buf j).Is dev b) ∧
        ((∃ i, (s.buf i).refcnt = 0 ∧ bgetScan dev b s = .ok i (s.setBuf i
            { s.buf i with dev := dev, blockno := b, valid := false, refcnt := 1 })) ∨
          (∀ j, (s.buf j).refcnt ≠ 0) ∧ bgetScan dev b s = .panic .bgetNoBuffers) := by
  cases hf : s.bcache.lru.find? fun i => decide ((s.buf i).Is dev b) with
  | some i =>
    have hi : (s.buf i).Is dev b := by simpa using find?_some hf
    exact Or.inl ⟨i, hi, by simp only [bgetScan, hf]⟩
  | none =>
    have hnone : ∀ j, ¬ (s.buf j).Is dev b := by
      intro j hj
      have := find?_eq_none.mp hf j (mem_lru s j)
      simp [hj] at this
    refine Or.inr ⟨hnone, ?_⟩
    cases hg : s.bcache.lru.reverse.find? fun i => decide ((s.buf i).refcnt = 0) with
    | some i =>
      have hi : (s.buf i).refcnt = 0 := by simpa using find?_some hg
      exact Or.inl ⟨i, hi, by simp only [bgetScan, hf, hg]⟩
    | none =>
      refine Or.inr ⟨?_, by simp only [bgetScan, hf, hg]⟩
      intro j hj
      have := find?_eq_none.mp hg j (mem_reverse.mpr (mem_lru s j))
      simp [hj] at this

section bread

variable {P : List Nat} {X : Nat → Prop} {s : Io} {C : Crit Panic Io} {me b : Nat}

private theorem wp_bgetScan (h : CacheInv P X s)
    (hC : ∀ t : Io, t.disk = s.disk → t.log = s.log → t.Coherent X → C.inv t)
    (hp : C.panic .bgetNoBuffers ∨ ∃ i, (s.buf i).refcnt = 0) :
    wp C (fun i t => C.inv t ∧
        ((s.buf i).Is ROOTDEV b ∧
            t = s.setBuf i { s.buf i with refcnt := (s.buf i).refcnt + 1 } ∨
          ((s.buf i).refcnt = 0 ∧ ∀ j, ¬ (s.buf j).Is ROOTDEV b) ∧
            t = s.setBuf i
              { s.buf i with dev := ROOTDEV, blockno := b, valid := false, refcnt := 1 }))
      (atomic (bgetScan ROOTDEV b)) s := by
  rw [wp_atomic]
  rcases bgetScan_cases ROOTDEV b s with ⟨i, hi, hscan⟩ | ⟨hnone, ⟨i, hi, hscan⟩ | ⟨hall, hscan⟩⟩
  · have hinv : C.inv (s.setBuf i { s.buf i with refcnt := (s.buf i).refcnt + 1 }) := by
      exact hC _ rfl rfl (h.coh.setBuf fun hv hl c hc hX => h.coh i c hc hv hl hX)
    rw [hscan]
    exact ⟨hinv, hinv, Or.inl ⟨hi, rfl⟩⟩
  · have hinv : C.inv (s.setBuf i
        { s.buf i with dev := ROOTDEV, blockno := b, valid := false, refcnt := 1 }) := by
      -- the recycled buffer is not valid yet
      exact hC _ rfl rfl (h.coh.setBuf fun hv => absurd hv (by simp))
    rw [hscan]
    exact ⟨hinv, hinv, Or.inr ⟨⟨hi, hnone⟩, rfl⟩⟩
  · rw [hscan]
    rcases hp with hp | ⟨i, hi⟩
    · exact hp
    · exact absurd hi (hall i)

theorem Buf.Is.inj {dev c d : Nat} (h : x.Is dev c) (h' : x.Is dev d) : c = d :=
  h.2.symm.trans h'.2

theorem Got.cacheInv {i : Fin NBUF} (h : CacheInv P X s) (g : Got me b s i t)
    (hv : (t.buf i).valid = true) (hr : (t.buf i).refcnt.toNat = (t.buf i).pins P + 1) :
    CacheInv P X t := by
  have honly : ∀ j, (t.buf j).Is ROOTDEV b → j = i := by
    intro j hj
    by_contra hji
    rw [g.others j hji] at hj
    rcases g.src with hi | ⟨_, hnone⟩
    · exact hji (h.uniq j i b hj hi)
    · exact hnone j hj
  constructor
  · intro j k c hj hk
    by_cases hji : j = i
    · subst hji
      have hc := Buf.Is.inj hj g.is
      subst hc
      exact (honly k hk).symm
    · by_cases hki : k = i
      · subst hki
        have hc := Buf.Is.inj hk g.is
        subst hc
        exact honly j hj
      · rw [g.others j hji] at hj
        rw [g.others k hki] at hk
        exact h.uniq j k c hj hk
  · intro j c hj
    by_cases hji : j = i
    · rw [hji]; exact hv
    · rw [g.others j hji] at hj ⊢
      exact h.valid j c hj
  · intro j
    by_cases hji : j = i
    · subst hji
      rw [hr, Buf.holds, if_neg (by rw [g.lock]; simp)]
    · rw [g.others j hji]
      exact h.refs j
  · intro c hc
    obtain ⟨k, hk⟩ := h.pinned c hc
    by_cases hki : k = i
    · subst hki
      rcases g.src with hi | ⟨hz, _⟩
      · rw [Buf.Is.inj hk hi]
        exact ⟨k, g.is⟩
      · exact absurd hc (h.not_pinned_of_refcnt hz hk)
    · exact ⟨k, by rw [g.others k hki]; exact hk⟩
  · intro j c hj hvj hl hc
    by_cases hji : j = i
    · rw [hji, g.lock] at hl
      exact absurd hl (by simp)
    · rw [g.others j hji] at hj hvj hl ⊢
      rw [g.disk]
      exact h.coh j c hj hvj hl hc

/-- A `bread` shows the thread what the cache showed before, and disturbs no view: only an
    unreferenced buffer can be recycled, and it agreed with the device. -/
theorem Got.view {i : Fin NBUF} (h : CacheInv P X s) (g : Got me b s i t) (ht : CacheInv P X t)
    {c : Nat} (hc : ¬ X c ∨ c ∈ P ∨ c = b) : t.view c = s.view c := by
  by_cases hcb : c = b
  · subst hcb
    rw [view_of_is ht.uniq g.is, g.data]
  rcases view_cases h.uniq c with ⟨k, hk, hview⟩ | ⟨hnone, hview⟩
  · by_cases hki : k = i
    · subst hki
      rcases g.src with hi | ⟨hz, _⟩
      · exact absurd (Buf.Is.inj hk hi) hcb
      · have hnp := h.not_pinned_of_refcnt hz hk
        have hX : ¬ X c := by
          rcases hc with hc | hc | hc
          · exact hc
          · exact absurd hc hnp
          · exact absurd hc hcb
        rw [hview, h.coh k c hk (h.valid k c hk) g.was hX, ← g.disk]
        apply view_of_none
        intro j hj
        by_cases hjk : j = k
        · subst hjk
          exact hcb (Buf.Is.inj hj g.is)
        · rw [g.others j hjk] at hj
          exact hjk (h.uniq j k c hj hk)
    · have hk' : (t.buf k).Is ROOTDEV c := by rw [g.others k hki]; exact hk
      rw [view_of_is ht.uniq hk', g.others k hki, hview]
  · rw [hview, ← g.disk]
    apply view_of_none
    intro j hj
    by_cases hji : j = i
    · subst hji
      exact hcb (Buf.Is.inj hj g.is)
    · rw [g.others j hji] at hj
      exact hnone j hj

theorem wp_bread (h : CacheInv P X s)
    (hC : ∀ t : Io, t.disk = s.disk → t.log = s.log → t.Coherent X → C.inv t)
    (hp : C.panic .bgetNoBuffers ∨ ∃ i, (s.buf i).refcnt = 0)
    (hb : C.block ∨ ∀ i, (s.buf i).Is ROOTDEV b → (s.buf i).lock = none) :
    wp C (fun i t => CacheInv P X t ∧ Got me b s i t) (bread me ROOTDEV b) s := by
  unfold bread bget
  rw [wp_bind, wp_bind]
  refine wp_mono (wp_bgetScan h hC hp) ?_
  rintro i t ⟨-, ht⟩
  rw [wp_bind, acquiresleep, wp_atomic]
  have hlock : (t.buf i).lock = (s.buf i).lock := by
    rcases ht with ⟨_, rfl⟩ | ⟨_, rfl⟩ <;> rw [setBuf_buf_same]
  cases hl : (s.buf i).lock with
  | some p =>
    -- held by somebody: only the block's own buffer can be
    rw [hlock, hl]
    rcases hb with hb | hb
    · exact hb
    · rcases ht with ⟨hi, _⟩ | ⟨⟨hz, _⟩, _⟩
      · rw [hb i hi] at hl; cases hl
      · rw [h.lock_of_refcnt hz] at hl; cases hl
  | none =>
    rw [hlock, hl]
    rcases ht with ⟨hi, rfl⟩ | ⟨⟨hz, hnone⟩, rfl⟩
    · have hv := h.valid i b hi
      have g : Got me b s i (s.setBuf i
          { s.buf i with refcnt := (s.buf i).refcnt + 1, lock := some me }) := by
        constructor
        · rw [setBuf_buf_same]; exact hi
        · rw [setBuf_buf_same]
        · exact hl
        · rw [setBuf_buf_same, view_of_is h.uniq hi]
        · exact fun j hj => setBuf_buf_ne _ _ hj
        · rfl
        · rfl
        · exact Or.inl hi
      have hinv : CacheInv P X (s.setBuf i
          { s.buf i with refcnt := (s.buf i).refcnt + 1, lock := some me }) := by
        refine g.cacheInv h ?_ ?_
        · rw [setBuf_buf_same]; exact hv
        · have hr := h.refs i
          rw [Buf.holds, if_pos hl] at hr
          have hpins := (s.buf i).pins_le P
          rw [setBuf_buf_same]
          simp only [Buf.pins] at hr hpins ⊢
          bv_omega
      simp only [setBuf_buf_same, setBuf_setBuf]
      refine ⟨hC _ rfl rfl hinv.coh, ?_⟩
      simp only [wp_pure, wp_bind, wp_update, setBuf_buf_same]
      rw [if_pos hv]
      exact ⟨hC _ rfl rfl hinv.coh, hinv, g⟩
    · have g : Got me b s i (s.setBuf i
          ⟨true, ROOTDEV, b, 1, some me, s.disk.data b⟩) := by
        constructor
        · rw [setBuf_buf_same]; exact ⟨rfl, rfl⟩
        · rw [setBuf_buf_same]
        · exact hl
        · rw [setBuf_buf_same, view_of_none hnone]
        · exact fun j hj => setBuf_buf_ne _ _ hj
        · rfl
        · rfl
        · exact Or.inr ⟨hz, hnone⟩
      have hinv : CacheInv P X (s.setBuf i ⟨true, ROOTDEV, b, 1, some me, s.disk.data b⟩) := by
        refine g.cacheInv h ?_ ?_
        · rw [setBuf_buf_same]
        · have hbP : b ∉ P := fun hb => by
            obtain ⟨j, hj⟩ := h.pinned b hb
            exact hnone j hj
          rw [setBuf_buf_same, Buf.pins_of_not_mem rfl hbP]
          rfl
      simp only [setBuf_setBuf]
      refine ⟨hC _ rfl rfl (h.coh.setBuf fun hv => absurd hv (by simp)), ?_⟩
      simp only [wp_pure, wp_bind, wp_update, setBuf_buf_same, setBuf_setBuf]
      exact ⟨hC _ rfl rfl hinv.coh, hinv, g⟩

end bread

/-! ## `b->data`, `bwrite` and `brelse` of a locked buffer -/

section held

variable {P : List Nat} {X : Nat → Prop} {s : Io} {C : Crit Panic Io} {me b : Nat} {i : Fin NBUF}

/-- The view depends on which buffer holds the block, on its data and on the device. -/
theorem view_congr (hs : s.Uniq) (ht : t.Uniq)
    (his : ∀ j, (t.buf j).Is ROOTDEV b ↔ (s.buf j).Is ROOTDEV b)
    (hdata : ∀ j, (s.buf j).Is ROOTDEV b → (t.buf j).data = (s.buf j).data)
    (hdisk : t.disk.data b = s.disk.data b) : t.view b = s.view b := by
  rcases view_cases hs b with ⟨j, hj, hview⟩ | ⟨hnone, hview⟩
  · rw [view_of_is ht ((his j).mpr hj), hdata j hj, hview]
  · rw [view_of_none fun j hj => hnone j ((his j).mp hj), hdisk, hview]

theorem setData_buf (d : Block) (j : Fin NBUF) :
    (s.setData i d).buf j = if j = i then { s.buf i with data := d } else s.buf j := rfl

@[simp] theorem setData_log (d : Block) : (s.setData i d).log = s.log := rfl

@[simp] theorem setData_buf_same (d : Block) :
    (s.setData i d).buf i = { s.buf i with data := d } := by
  rw [setData_buf, if_pos rfl]

theorem setData_buf_ne (d : Block) {j : Fin NBUF} (h : j ≠ i) :
    (s.setData i d).buf j = s.buf j := by
  rw [setData_buf, if_neg h]

/-- Everything about a buffer but its data. -/
theorem setData_same (d : Block) (j : Fin NBUF) :
    ((s.setData i d).buf j).valid = (s.buf j).valid ∧
      (∀ c, ((s.setData i d).buf j).Is ROOTDEV c ↔ (s.buf j).Is ROOTDEV c) ∧
      ((s.setData i d).buf j).refcnt = (s.buf j).refcnt ∧
      ((s.setData i d).buf j).lock = (s.buf j).lock ∧
      ((s.setData i d).buf j).pins P = (s.buf j).pins P := by
  by_cases hji : j = i
  · subst hji
    rw [setData_buf_same]
    exact ⟨rfl, fun _ => Iff.rfl, rfl, rfl, rfl⟩
  · rw [setData_buf_ne d hji]
    exact ⟨rfl, fun _ => Iff.rfl, rfl, rfl, rfl⟩

theorem CacheInv.setData (h : CacheInv P X s) (hl : (s.buf i).lock ≠ none) (d : Block) :
    CacheInv P X (s.setData i d) := by
  have same := fun j => setData_same (P := P) (s := s) (i := i) d j
  constructor
  · intro j k c hj hk
    exact h.uniq j k c (((same j).2.1 c).mp hj) (((same k).2.1 c).mp hk)
  · intro j c hj
    rw [(same j).1]
    exact h.valid j c (((same j).2.1 c).mp hj)
  · intro j
    rw [(same j).2.2.1, (same j).2.2.2.2, Buf.holds, (same j).2.2.2.1]
    exact h.refs j
  · intro c hc
    obtain ⟨j, hj⟩ := h.pinned c hc
    exact ⟨j, ((same j).2.1 c).mpr hj⟩
  · exact h.coh.setBuf fun _ hn => absurd hn hl

theorem setData_uniq (h : s.Uniq) (d : Block) : (s.setData i d).Uniq :=
  fun j k c hj hk => h j k c (((setData_same (P := []) d j).2.1 c).mp hj)
    (((setData_same (P := []) d k).2.1 c).mp hk)

theorem view_setData (h : s.Uniq) (hi : (s.buf i).Is ROOTDEV b) (d : Block) (c : Nat) :
    (s.setData i d).view c = if c = b then d else s.view c := by
  have ht := setData_uniq (i := i) h d
  by_cases hcb : c = b
  · subst hcb
    rw [if_pos rfl, view_of_is ht (by rw [setData_buf_same]; exact hi), setData_buf_same]
  · rw [if_neg hcb]
    refine view_congr h ht (fun j => (setData_same (P := []) d j).2.1 c) ?_ rfl
    intro j hj
    have hji : j ≠ i := by
      rintro rfl
      exact hcb (Buf.Is.inj hj hi)
    rw [setData_buf_ne d hji]

theorem wp_modifyData {f : Block → Block} (h : CacheInv P X s) (hl : (s.buf i).lock ≠ none)
    (hC : ∀ t : Io, t.disk = s.disk → t.log = s.log → t.Coherent X → C.inv t) :
    wp C (fun _ t => CacheInv P X t ∧ t = s.setData i (f (s.buf i).data)) (modifyData i f) s := by
  have hinv := h.setData hl (f (s.buf i).data)
  exact ⟨hC _ rfl rfl hinv.coh, hinv, rfl⟩

/-- The device may change at the block of a locked buffer. -/
theorem CacheInv.diskWrite (h : CacheInv P X s) (hi : (s.buf i).Is ROOTDEV b)
    (hl : (s.buf i).lock ≠ none) (v : Block) :
    CacheInv P X { s with disk := s.disk.write b v } := by
  refine ⟨h.uniq, h.valid, h.refs, h.pinned, ?_⟩
  intro j c hj hv hlj hc
  have hcb : c ≠ b := by
    rintro rfl
    have hji := h.uniq j i c hj hi
    subst hji
    exact hl hlj
  have := h.coh j c hj hv hlj hc
  simp only [Disk.write, if_neg hcb]
  exact this

/-- `bwrite`: the device now holds the buffer's data. -/
theorem wp_bwrite (h : CacheInv P X s) (hi : (s.buf i).Is ROOTDEV b)
    (hl : (s.buf i).lock = some me) (hC0 : C.inv s)
    (hC : C.inv { s with disk := s.disk.write b (s.buf i).data }) :
    wp C (fun _ t => CacheInv P X t ∧ t = { s with disk := s.disk.write b (s.buf i).data })
      (bwrite me i) s := by
  have hinv := h.diskWrite hi (by rw [hl]; simp) (s.buf i).data
  unfold bwrite holdingsleep
  rw [wp_bind, wp_look]
  refine ⟨hC0, ?_⟩
  have hhold : ((s.buf i).lock == some me) = true := by rw [hl]; simp
  rw [hhold, if_pos rfl, wp_update, hi.2]
  exact ⟨hC, hinv, rfl⟩

/-- What `brelse` does to the cache. -/
structure Put (i : Fin NBUF) (s t : Io) : Prop where
  buf : t.buf i = { s.buf i with lock := none, refcnt := (s.buf i).refcnt - 1 }
  others : ∀ j, j ≠ i → t.buf j = s.buf j
  disk : t.disk = s.disk
  log : t.log = s.log

theorem Put.is (p : Put i s t) (j : Fin NBUF) (c : Nat) :
    (t.buf j).Is ROOTDEV c ↔ (s.buf j).Is ROOTDEV c := by
  by_cases hji : j = i
  · subst hji; rw [p.buf]; exact Iff.rfl
  · rw [p.others j hji]

theorem Put.data (p : Put i s t) (j : Fin NBUF) : (t.buf j).data = (s.buf j).data := by
  by_cases hji : j = i
  · subst hji; rw [p.buf]
  · rw [p.others j hji]

theorem Put.uniq (p : Put i s t) (h : s.Uniq) : t.Uniq :=
  fun j k c hj hk => h j k c ((p.is j c).mp hj) ((p.is k c).mp hk)

theorem Put.view (p : Put i s t) (h : s.Uniq) (c : Nat) : t.view c = s.view c :=
  view_congr h (p.uniq h) (fun j => p.is j c) (fun j _ => p.data j) (by rw [p.disk])

theorem Put.cacheInv (p : Put i s t) (h : CacheInv P X s) (hl : (s.buf i).lock ≠ none)
    (hclean : ∀ c, (s.buf i).Is ROOTDEV c → ¬ X c → (s.buf i).data = s.disk.data c) :
    CacheInv P X t := by
  constructor
  · exact p.uniq h.uniq
  · intro j c hj
    have hv := h.valid j c ((p.is j c).mp hj)
    by_cases hji : j = i
    · subst hji; rw [p.buf]; exact hv
    · rw [p.others j hji]; exact hv
  · intro j
    by_cases hji : j = i
    · subst hji
      have hr := h.refs j
      rw [Buf.holds, if_neg hl] at hr
      rw [p.buf]
      simp only [Buf.pins, Buf.holds, if_true] at hr ⊢
      bv_omega
    · rw [p.others j hji]; exact h.refs j
  · intro c hc
    obtain ⟨j, hj⟩ := h.pinned c hc
    exact ⟨j, (p.is j c).mpr hj⟩
  · intro j c hj hv hlj hc
    rw [p.data j, p.disk]
    have hj' := (p.is j c).mp hj
    by_cases hji : j = i
    · subst hji; exact hclean c hj' hc
    · rw [p.others j hji] at hv hlj
      exact h.coh j c hj' hv hlj hc

theorem wp_brelse (h : CacheInv P X s) (hl : (s.buf i).lock = some me)
    (hclean : ∀ c, (s.buf i).Is ROOTDEV c → ¬ X c → (s.buf i).data = s.disk.data c)
    (hC : ∀ t : Io, t.disk = s.disk → t.log = s.log → t.Coherent X → C.inv t) :
    wp C (fun _ t => CacheInv P X t ∧ Put i s t) (brelse me i) s := by
  have hl' : (s.buf i).lock ≠ none := by rw [hl]; simp
  have p : Put i s (dropRef i (s.setBuf i { s.buf i with lock := none })) := by
    constructor
    · rw [dropRef_buf, if_pos rfl, setBuf_buf_same]
    · intro j hj
      rw [dropRef_buf, if_neg hj, setBuf_buf_ne _ _ hj]
    · rw [dropRef_disk, setBuf_disk]
    · rw [dropRef_log, setBuf_log]
  have hinv := p.cacheInv h hl' hclean
  unfold brelse holdingsleep
  rw [wp_bind, wp_look]
  refine ⟨hC s rfl rfl h.coh, ?_⟩
  have hhold : ((s.buf i).lock == some me) = true := by rw [hl]; simp
  rw [hhold]
  refine ⟨hC _ rfl rfl (h.coh.setBuf fun _ _ c hc hX => hclean c hc hX), ?_⟩
  exact ⟨hC _ p.disk p.log hinv.coh, hinv, p⟩

end held

/-! ## Free buffers -/

/-- A buffer is unreferenced as long as the pinned blocks and the locked buffers do not use up the
    cache. -/
theorem CacheInv.exists_free {P : List Nat} {X : Nat → Prop} {s : Io} (h : CacheInv P X s)
    {L : List (Fin NBUF)} (hL : ∀ i, (s.buf i).lock ≠ none → i ∈ L)
    (hlen : P.length + L.length < NBUF) : ∃ i, (s.buf i).refcnt = 0 := by
  classical
  by_contra hno
  have hall : ∀ i, (s.buf i).refcnt ≠ 0 := fun i hi => hno ⟨i, hi⟩
  let A : Finset (Fin NBUF) :=
    Finset.univ.filter fun i => (s.buf i).dev = ROOTDEV ∧ (s.buf i).blockno ∈ P
  have hA : A.card ≤ P.length := by
    have hmaps : ∀ i ∈ A, (s.buf i).blockno ∈ P.toFinset := by
      intro i hi
      exact mem_toFinset.mpr (Finset.mem_filter.mp hi).2.2
    have hinj : ∀ i ∈ A, ∀ j ∈ A, (s.buf i).blockno = (s.buf j).blockno → i = j := by
      intro i hi j hj hij
      have hi' := (Finset.mem_filter.mp hi).2
      have hj' := (Finset.mem_filter.mp hj).2
      exact h.uniq i j (s.buf i).blockno ⟨hi'.1, rfl⟩ ⟨hj'.1, hij.symm⟩
    exact (Finset.card_le_card_of_injOn _ hmaps hinj).trans (toFinset_card_le P)
  have hcover : (Finset.univ : Finset (Fin NBUF)) ⊆ A ∪ L.toFinset := by
    intro i _
    have hr := h.refs i
    by_cases hl : (s.buf i).lock = none
    · have hp : (s.buf i).pins P ≠ 0 := by
        rw [Buf.holds, if_pos hl] at hr
        have := hall i
        bv_omega
      rw [Buf.pins] at hp
      have : (s.buf i).dev = ROOTDEV ∧ (s.buf i).blockno ∈ P := by
        by_contra hc
        rw [if_neg hc] at hp
        exact hp rfl
      exact Finset.mem_union_left _ (Finset.mem_filter.mpr ⟨Finset.mem_univ i, this⟩)
    · exact Finset.mem_union_right _ (mem_toFinset.mpr (hL i hl))
  have hcard := Finset.card_le_card hcover
  have hunion := Finset.card_union_le A L.toFinset
  have hLc := toFinset_card_le L
  rw [Finset.card_univ, Fintype.card_fin] at hcard
  omega

end Xv6
