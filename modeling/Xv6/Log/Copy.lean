/-
  The bodies of the two copy loops of `log.c`: a block is read into one buffer, copied into
  another and written out.

  `writeLog` copies a cached home block into the log, `installTrans` a log block into its home.
  Both take two buffers and give both back; `Copied` says what is left behind.
-/
import Xv6.Log.Head

namespace Xv6

open Lib.Prog Io

/-- No buffer is locked. -/
def Io.Unlocked (s : Io) : Prop := ∀ i, (s.buf i).lock = none

section pair

variable {P : List Nat} {X : Nat → Prop} {s : Io} {C : Crit Panic Io} {me b c : Nat}

/-- Two buffers in hand: `i` with block `b` and `j` with block `c`. -/
structure Pair (me b c : Nat) (s : Io) (i j : Fin NBUF) (t : Io) : Prop where
  ne : i ≠ j
  isL : (t.buf i).Is ROOTDEV b
  isR : (t.buf j).Is ROOTDEV c
  lockL : (t.buf i).lock = some me
  lockR : (t.buf j).lock = some me
  dataL : (t.buf i).data = s.view b
  dataR : (t.buf j).data = s.view c
  free : ∀ k, k ≠ i → k ≠ j → (t.buf k).lock = none
  disk : t.disk = s.disk
  log : t.log = s.log

theorem wp_bread_bread (h : CacheInv P X s) (hu : s.Unlocked) (hbc : b ≠ c)
    (hc : ¬ X c ∨ c ∈ P)
    (hC : ∀ t : Io, t.disk = s.disk → t.log = s.log → t.Coherent X → C.inv t)
    (hp : C.panic .bgetNoBuffers ∨ P.length + 1 < NBUF)
    {Q : Fin NBUF → Fin NBUF → Io → Prop}
    (hQ : ∀ i j t, CacheInv P X t → Pair me b c s i j t →
      (∀ e, ¬ X e ∨ e ∈ P → t.view e = s.view e) → Q i j t) :
    wp C (fun i t => wp C (fun j u => Q i j u) (bread me ROOTDEV c) t)
      (bread me ROOTDEV b) s := by
  have hfree : C.panic .bgetNoBuffers ∨ ∃ i, (s.buf i).refcnt = 0 := by
    refine hp.imp id fun hp => h.exists_free (L := []) ?_ (by simp only [List.length_nil]; omega)
    intro i hi
    exact absurd (hu i) hi
  refine wp_mono (wp_bread h hC hfree (Or.inr fun i _ => hu i)) ?_
  rintro i t ⟨ht, g⟩
  have hlocked : ∀ k, k ≠ i → (t.buf k).lock = none := by
    intro k hk
    rw [g.others k hk]
    exact hu k
  have hfree' : C.panic .bgetNoBuffers ∨ ∃ i, (t.buf i).refcnt = 0 := by
    refine hp.imp id fun hp => ht.exists_free (L := [i]) ?_ (by simpa using hp)
    intro k hk
    by_contra hki
    exact hk (hlocked k (by simpa using hki))
  have hblock : ∀ k, (t.buf k).Is ROOTDEV c → (t.buf k).lock = none := by
    intro k hk
    refine hlocked k ?_
    rintro rfl
    exact hbc (Buf.Is.inj g.is hk)
  have hC' : ∀ u : Io, u.disk = t.disk → u.log = t.log → u.Coherent X → C.inv u := by
    intro u hd hl hco
    exact hC u (hd.trans g.disk) (hl.trans g.log) hco
  refine wp_mono (wp_bread ht hC' hfree' (Or.inr hblock)) ?_
  rintro j u ⟨hinv, g'⟩
  have hij : i ≠ j := by
    rintro rfl
    have := g'.was
    rw [g.lock] at this
    cases this
  have hview : ∀ e, ¬ X e ∨ e ∈ P → t.view e = s.view e :=
    fun e he => g.view h ht (he.imp id Or.inl)
  refine hQ i j u hinv ?_ ?_
  · constructor
    · exact hij
    · rw [g'.others i hij]; exact g.is
    · exact g'.is
    · rw [g'.others i hij]; exact g.lock
    · exact g'.lock
    · rw [g'.others i hij]; exact g.data
    · rw [g'.data, hview c hc]
    · intro k hki hkj
      rw [g'.others k hkj]
      exact hlocked k hki
    · rw [g'.disk, g.disk]
    · rw [g'.log, g.log]
  · intro e he
    rw [g'.view ht hinv (he.imp id Or.inl), hview e he]

/-- Writing a cached block out changes no view. -/
theorem view_diskWrite (hu : s.Uniq) {i : Fin NBUF} (hi : (s.buf i).Is ROOTDEV b) (v : Block)
    (e : Nat) : ({ s with disk := s.disk.write b v } : Io).view e = s.view e := by
  by_cases heb : e = b
  · subst heb
    rw [view_of_is hu hi, view_of_is (s := { s with disk := s.disk.write e v }) hu hi]
    rfl
  · exact view_congr hu hu (fun _ => Iff.rfl) (fun _ _ => rfl) (by simp [Disk.write, heb])

theorem CacheInv.view_eq_disk (h : CacheInv P X s) (hu : s.Unlocked) (hc : ¬ X c) :
    s.view c = s.disk.data c := by
  rcases view_cases h.uniq c with ⟨i, hi, hview⟩ | ⟨_, hview⟩
  · rw [hview, h.coh i c hi (h.valid i c hi) (hu i) hc]
  · exact hview

/-- The block of a locked buffer is exempt anyway. -/
theorem CacheInv.of_locked (h : CacheInv P X s) {i : Fin NBUF} (hi : (s.buf i).Is ROOTDEV b)
    (hl : (s.buf i).lock ≠ none) : CacheInv P (fun c => X c ∧ c ≠ b) s := by
  refine ⟨h.uniq, h.valid, h.refs, h.pinned, ?_⟩
  intro j c hj hv hlj hc
  have hcb : c ≠ b := by
    rintro rfl
    have hji := h.uniq j i c hj hi
    subst hji
    exact hl hlj
  exact h.coh j c hj hv hlj fun hX => hc ⟨hX, hcb⟩

/-! ## The copy and the release -/

/-- Buffer `i` got the data `d`, and so did its block `b` on the device. -/
structure Wrote (i : Fin NBUF) (b : Nat) (d : Block) (s t : Io) : Prop where
  buf : t.buf i = { s.buf i with data := d }
  others : ∀ k, k ≠ i → t.buf k = s.buf k
  disk : t.disk = s.disk.write b d
  log : t.log = s.log
  view : ∀ e, t.view e = if e = b then d else s.view e

theorem wrote_setData (hu : s.Uniq) {i : Fin NBUF} (hi : (s.buf i).Is ROOTDEV b) (d : Block) :
    Wrote i b d s { s.setData i d with disk := (s.setData i d).disk.write b d } := by
  have hti : ((s.setData i d).buf i).Is ROOTDEV b := by rw [setData_buf_same]; exact hi
  refine ⟨setData_buf_same d, fun k hk => setData_buf_ne d hk, rfl, rfl, ?_⟩
  intro e
  rw [view_diskWrite (setData_uniq hu d) hti, view_setData hu hi]

/-- New data in a locked buffer, written through. -/
theorem wp_modifyData_bwrite {i : Fin NBUF} {β : Type} {Q : β → Io → Prop} {rest : IoM β}
    {f : Block → Block} (h : CacheInv P X s) (hi : (s.buf i).Is ROOTDEV b)
    (hl : (s.buf i).lock = some me)
    (hC : ∀ t : Io, t.disk = s.disk → t.log = s.log → t.Coherent X → C.inv t)
    (hC' : ∀ t : Io, t.disk = s.disk.write b (f (s.buf i).data) → t.log = s.log →
      t.Coherent X → C.inv t)
    (hQ : ∀ t, Wrote i b (f (s.buf i).data) s t → CacheInv P X t → wp C Q rest t) :
    wp C Q (do
      modifyData i f
      bwrite me i
      rest) s := by
  have hl' : (s.buf i).lock ≠ none := by rw [hl]; simp
  refine wp_seq (wp_modifyData h hl' hC) ?_
  rintro _ t ⟨ht, rfl⟩
  generalize f (s.buf i).data = d at ht hC' hQ ⊢
  have hti : ((s.setData i d).buf i).Is ROOTDEV b := by rw [setData_buf_same]; exact hi
  have htl : ((s.setData i d).buf i).lock = some me := by rw [setData_buf_same]; exact hl
  have htd : ((s.setData i d).buf i).data = d := by rw [setData_buf_same]
  have hw := ht.diskWrite hti (by rw [htl]; simp) d
  refine wp_seq (wp_bwrite ht hti htl (hC _ rfl rfl ht.coh) ?_) ?_
  · rw [htd]
    exact hC' _ rfl rfl hw.coh
  · rintro _ u ⟨-, rfl⟩
    rw [htd]
    exact hQ _ (wrote_setData h.uniq hi d) hw

/-- Two buffers given back. -/
theorem wp_brelse_brelse {i j : Fin NBUF} {Q : Unit → Io → Prop} (h : CacheInv P X s)
    (hij : i ≠ j) (hli : (s.buf i).lock = some me) (hlj : (s.buf j).lock = some me)
    (hci : ∀ c, (s.buf i).Is ROOTDEV c → ¬ X c → (s.buf i).data = s.disk.data c)
    (hcj : ∀ c, (s.buf j).Is ROOTDEV c → ¬ X c → (s.buf j).data = s.disk.data c)
    (hfree : ∀ k, k ≠ i → k ≠ j → (s.buf k).lock = none)
    (hC : ∀ t : Io, t.disk = s.disk → t.log = s.log → t.Coherent X → C.inv t)
    (hQ : ∀ t : Io, CacheInv P X t → t.Unlocked → t.disk = s.disk → t.log = s.log →
      (∀ e, t.view e = s.view e) → Q () t) :
    wp C Q (do
      brelse me i
      brelse me j) s := by
  refine wp_seq (wp_brelse h hli hci hC) ?_
  rintro _ t ⟨ht, p⟩
  have hbj : t.buf j = s.buf j := p.others j (Ne.symm hij)
  refine wp_mono (wp_brelse ht (by rw [hbj]; exact hlj) ?_ ?_) ?_
  · intro c hc hX
    rw [hbj, p.disk]
    rw [hbj] at hc
    exact hcj c hc hX
  · intro u hd hl hco
    exact hC u (hd.trans p.disk) (hl.trans p.log) hco
  · rintro _ u ⟨hu, q⟩
    refine hQ u hu ?_ (q.disk.trans p.disk) (q.log.trans p.log) ?_
    · intro k
      by_cases hkj : k = j
      · subst hkj; rw [q.buf]
      · rw [q.others k hkj]
        by_cases hki : k = i
        · subst hki; rw [p.buf]
        · rw [p.others k hki]
          exact hfree k hki hkj
    · intro e
      rw [q.view ht.uniq, p.view h.uniq]

end pair

/-! ## Pins -/

section pins

variable {P : List Nat} {X : Nat → Prop} {s : Io} {b : Nat} {i : Fin NBUF}

/-- A change of reference counts only. -/
theorem view_setRefcnt (hu : s.Uniq) (n : BitVec 32) (c : Nat) :
    (s.setBuf i { s.buf i with refcnt := n }).view c = s.view c := by
  have hbuf : ∀ j, (∀ d, ((s.setBuf i { s.buf i with refcnt := n }).buf j).Is ROOTDEV d ↔
      (s.buf j).Is ROOTDEV d) ∧
      ((s.setBuf i { s.buf i with refcnt := n }).buf j).data = (s.buf j).data := by
    intro j
    by_cases hji : j = i
    · subst hji; rw [setBuf_buf_same]; exact ⟨fun _ => Iff.rfl, rfl⟩
    · rw [setBuf_buf_ne _ _ hji]; exact ⟨fun _ => Iff.rfl, rfl⟩
  refine view_congr hu ?_ (fun j => (hbuf j).1 c) (fun j _ => (hbuf j).2) rfl
  intro j k d hj hk
  exact hu j k d (((hbuf j).1 d).mp hj) (((hbuf k).1 d).mp hk)

/-- If the list of pinned blocks changes by block `b` only, the reference count of its buffer has
    to follow. -/
theorem CacheInv.repin {P' : List Nat} (h : CacheInv P X s) (hi : (s.buf i).Is ROOTDEV b)
    (hP : ∀ c, c ≠ b → (c ∈ P' ↔ c ∈ P)) {n : BitVec 32}
    (hn : n.toNat = (s.buf i).pins P' + (s.buf i).holds) :
    CacheInv P' X (s.setBuf i { s.buf i with refcnt := n }) := by
  constructor
  · intro j k c hj hk
    refine h.uniq j k c ?_ ?_
    · by_cases hji : j = i
      · subst hji; rw [setBuf_buf_same] at hj; exact hj
      · rw [setBuf_buf_ne _ _ hji] at hj; exact hj
    · by_cases hki : k = i
      · subst hki; rw [setBuf_buf_same] at hk; exact hk
      · rw [setBuf_buf_ne _ _ hki] at hk; exact hk
  · intro j c hj
    by_cases hji : j = i
    · subst hji; rw [setBuf_buf_same] at hj ⊢; exact h.valid j c hj
    · rw [setBuf_buf_ne _ _ hji] at hj ⊢; exact h.valid j c hj
  · intro j
    by_cases hji : j = i
    · subst hji; rw [setBuf_buf_same]; exact hn
    · rw [setBuf_buf_ne _ _ hji, h.refs j]
      congr 1
      refine if_congr ⟨?_, ?_⟩ rfl rfl
      · rintro ⟨hd, hm⟩
        refine ⟨hd, (hP _ ?_).mpr hm⟩
        rintro hb
        exact hji (h.uniq j i b ⟨hd, hb⟩ hi)
      · rintro ⟨hd, hm⟩
        refine ⟨hd, (hP _ ?_).mp hm⟩
        rintro hb
        exact hji (h.uniq j i b ⟨hd, hb⟩ hi)
  · intro c hc
    by_cases hcb : c = b
    · subst hcb; exact ⟨i, by rw [setBuf_buf_same]; exact hi⟩
    · obtain ⟨k, hk⟩ := h.pinned c ((hP c hcb).mp hc)
      have hki : k ≠ i := by
        rintro rfl
        exact hcb (Buf.Is.inj hk hi)
      exact ⟨k, by rw [setBuf_buf_ne _ _ hki]; exact hk⟩
  · exact h.coh.setBuf fun hv hl c hc hX => h.coh i c hc hv hl hX

theorem CacheInv.bpin (h : CacheInv P X s) (hi : (s.buf i).Is ROOTDEV b) (hb : b ∉ P) :
    CacheInv (P ++ [b]) X (bpin i s) := by
  refine h.repin hi (fun c hc => by simp [hc]) ?_
  have hr := h.refs i
  have hholds := (s.buf i).holds_le
  rw [Buf.pins_of_not_mem hi.2 hb] at hr
  rw [Buf.pins_of_mem hi (by simp)]
  bv_omega

theorem CacheInv.bunpin (h : CacheInv (b :: P) X s) (hi : (s.buf i).Is ROOTDEV b) (hb : b ∉ P) :
    CacheInv P X (bunpin i s) := by
  refine h.repin hi (fun c hc => by simp [hc]) ?_
  have hr := h.refs i
  rw [Buf.pins_of_mem hi (by simp)] at hr
  rw [Buf.pins_of_not_mem hi.2 hb]
  bv_omega

end pins

end Xv6
