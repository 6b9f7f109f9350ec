/-
  What the functions of `log.c` do, one specification each.

  The pinned blocks of the cache are the blocks of the in-memory log header, and they are the
  only ones whose cached contents may be ahead of the device, besides a set `T` of blocks that
  somebody has changed without logging them.  `T` and the logged blocks lie outside the log area
  (`Home`).

  * `wp_writeLog`: the log area receives the cached contents of the logged blocks.
  * `wp_installTrans`: the home blocks receive the contents of the log area, and their buffers
    are unpinned, during a commit and during a recovery alike.
  * `wp_writeHead`, `wp_readHead`, `wp_logWrite`.
-/
import Xv6.Log.Copy

namespace Xv6

open Lib.Prog Io List

/-- Block `b` lies outside the log area, which is the header block and `LOGBLOCKS` log blocks. -/
def Home (start b : Nat) : Prop := b < start ∨ start + LOGBLOCKS < b

instance (start b : Nat) : Decidable (Home start b) := inferInstanceAs (Decidable (_ ∨ _))

variable {b k : Nat}

theorem Home.ne_start {start : Nat} (h : Home start b) : b ≠ start := by
  unfold Home LOGBLOCKS at h
  omega

theorem Home.ne_log {start : Nat} (h : Home start b) (hk : k < LOGBLOCKS) : b ≠ start + k + 1 := by
  unfold Home LOGBLOCKS at h
  unfold LOGBLOCKS at hk
  omega

/-! ## Writes of the device -/

@[simp] theorem Disk.write_data (d : Disk) (b c : Nat) (v : Block) :
    (d.write b v).data c = if c = b then v else d.data c := rfl

@[simp] theorem Disk.write_issued (d : Disk) (b : Nat) (v : Block) :
    (d.write b v).issued = b :: d.issued := rfl

/-- How many header writes the device has seen. -/
def Disk.heads (d : Disk) (start : Nat) : Nat := d.issued.count start

theorem Disk.heads_write_same (d : Disk) (start : Nat) (v : Block) :
    (d.write start v).heads start = d.heads start + 1 := by
  simp [heads]

theorem Disk.heads_write_ne (d : Disk) {start : Nat} (v : Block) (h : b ≠ start) :
    (d.write b v).heads start = d.heads start := by
  simp [heads, h]

section spec

variable {P : List Nat} {X : Nat → Prop} {s : Io} {C : Crit Panic Io} {me : Nat}

theorem Io.Unlocked.exists_free (hu : s.Unlocked) (h : CacheInv P X s) (hlen : P.length < NBUF) :
    ∃ i, (s.buf i).refcnt = 0 := by
  refine h.exists_free (L := []) ?_ (by simpa using hlen)
  intro i hi
  exact absurd (hu i) hi

/-! ## `write_head` and `read_head` -/

theorem wp_writeHead (h : CacheInv P X s) (hu : s.Unlocked) (hX : ¬ X s.log.start)
    (hp : C.panic .bgetNoBuffers ∨ P.length + 1 < NBUF)
    (hC : ∀ t : Io, t.disk = s.disk → t.log = s.log → t.Coherent X → C.inv t)
    (hC' : ∀ t : Io, t.disk = s.disk.write s.log.start
        (encodeHead (s.disk.data s.log.start) s.log.block) →
      t.log = s.log → t.Coherent X → C.inv t) :
    wp C (fun _ t => CacheInv P X t ∧ t.Unlocked ∧ t.log = s.log ∧
        t.disk = s.disk.write s.log.start
          (encodeHead (s.disk.data s.log.start) s.log.block) ∧
        ∀ c, ¬ X c ∨ c ∈ P → c ≠ s.log.start → t.view c = s.view c)
      (writeHead me) s := by
  have hfree : C.panic .bgetNoBuffers ∨ ∃ i, (s.buf i).refcnt = 0 :=
    hp.imp id fun hp => hu.exists_free h (by omega)
  unfold writeHead
  rw [wp_bind]
  refine ⟨hC s rfl rfl h.coh, ?_⟩
  refine wp_seq (wp_bread h hC hfree (Or.inr fun i _ => hu i)) ?_
  rintro i t ⟨ht, g⟩
  have hdata : (t.buf i).data = s.disk.data s.log.start := by
    rw [g.data, h.view_eq_disk hu hX]
  have hCt : ∀ u : Io, u.disk = t.disk → u.log = t.log → u.Coherent X → C.inv u :=
    fun u hd hl hco => hC u (hd.trans g.disk) (hl.trans g.log) hco
  generalize hv : encodeHead (s.disk.data s.log.start) s.log.block = v at hC' ⊢
  have hv' : encodeHead (t.buf i).data s.log.block = v := by rw [hdata, hv]
  refine wp_modifyData_bwrite ht g.is g.lock hCt ?_ ?_
  · intro x hd hl hco
    rw [hv', g.disk] at hd
    exact hC' x hd (hl.trans g.log) hco
  intro x w hx
  rw [hv'] at w
  have hxd : x.disk = s.disk.write s.log.start v := by rw [w.disk, g.disk]
  have hxl : x.log = s.log := w.log.trans g.log
  refine wp_mono (wp_brelse hx (by rw [w.buf]; exact g.lock) ?_ ?_) ?_
  · intro c hc _
    rw [w.buf] at hc
    rw [w.buf, hxd, Buf.Is.inj hc g.is, Disk.write_data, if_pos rfl]
  · intro y hd hl hco
    exact hC' y (hd.trans hxd) (hl.trans hxl) hco
  · rintro _ y ⟨hy, p⟩
    refine ⟨hy, ?_, p.log.trans hxl, p.disk.trans hxd, ?_⟩
    · intro k
      by_cases hki : k = i
      · subst hki; rw [p.buf]
      · rw [p.others k hki, w.others k hki, g.others k hki]
        exact hu k
    · intro c hc hcs
      rw [p.view hx.uniq, w.view, if_neg hcs, g.view h ht (hc.imp id Or.inl)]

theorem wp_readHead (h : CacheInv P X s) (hu : s.Unlocked) (hX : ¬ X s.log.start)
    (hp : C.panic .bgetNoBuffers ∨ P.length + 1 < NBUF)
    (hC : ∀ t : Io, t.disk = s.disk → C.inv t) :
    wp C (fun _ t => CacheInv P X t ∧ t.Unlocked ∧
        t.log = { s.log with block := decodeHead (s.disk.data s.log.start) } ∧
        t.disk = s.disk)
      (readHead me) s := by
  have hfree : C.panic .bgetNoBuffers ∨ ∃ i, (s.buf i).refcnt = 0 :=
    hp.imp id fun hp => hu.exists_free h (by omega)
  unfold readHead
  rw [wp_bind]
  refine ⟨hC s rfl, ?_⟩
  refine wp_seq (wp_bread h (fun t hd _ _ => hC t hd) hfree (Or.inr fun i _ => hu i)) ?_
  rintro i t ⟨ht, g⟩
  rw [wp_bind, bufData, wp_look]
  refine ⟨hC t g.disk, ?_⟩
  rw [wp_bind, wp_update]
  refine ⟨hC _ g.disk, ?_⟩
  have hdata : (t.buf i).data = s.disk.data s.log.start := by
    rw [g.data, h.view_eq_disk hu hX]
  rw [hdata]
  generalize decodeHead (s.disk.data s.log.start) = bs
  have hu' : CacheInv P X { t with log := { t.log with block := bs } } :=
    ⟨ht.uniq, ht.valid, ht.refs, ht.pinned, ht.coh⟩
  refine wp_mono (wp_brelse hu' g.lock ?_ fun x hd _ _ => hC x (hd.trans g.disk)) ?_
  · intro c hc _
    rw [Buf.Is.inj hc g.is]
    show (t.buf i).data = t.disk.data s.log.start
    rw [hdata, g.disk]
  · rintro _ x ⟨hx, p⟩
    refine ⟨hx, ?_, ?_, p.disk.trans g.disk⟩
    · intro k
      by_cases hki : k = i
      · subst hki; rw [p.buf]
      · rw [p.others k hki]
        show (t.buf k).lock = none
        rw [g.others k hki]
        exact hu k
    · rw [p.log, g.log]

/-! ## `write_log` -/

/-- The device while `write_log` runs: only log blocks have changed. -/
structure Logging (start : Nat) (d₀ d : Disk) : Prop where
  keep : ∀ c, Home start c ∨ c = start → d.data c = d₀.data c
  heads : d.heads start = d₀.heads start

/-- `n` log blocks hold the contents `V` of the first `n` blocks of `bs`. -/
def Logged (start : Nat) (bs : List Nat) (V : Nat → Block) (n : Nat) (d : Disk) : Prop :=
  ∀ k, k < n → d.data (start + k + 1) = V (bs.getD k 0)

theorem Logging.refl (start : Nat) (d : Disk) : Logging start d d := ⟨fun _ _ => rfl, rfl⟩

theorem Logging.write {start : Nat} {d₀ d : Disk} (h : Logging start d₀ d) (hk : k < LOGBLOCKS)
    (v : Block) : Logging start d₀ (d.write (start + k + 1) v) := by
  constructor
  · intro c hc
    have hne : c ≠ start + k + 1 := by
      rcases hc with hc | hc
      · exact hc.ne_log hk
      · omega
    rw [Disk.write_data, if_neg hne]
    exact h.keep c hc
  · rw [Disk.heads_write_ne _ _ (by omega)]
    exact h.heads

variable {n c : Nat}

theorem Logged.write {start : Nat} {bs : List Nat} {V : Nat → Block} {d : Disk}
    (h : Logged start bs V n d) : Logged start bs V (n + 1)
      (d.write (start + n + 1) (V (bs.getD n 0))) := by
  intro k hk
  rw [Disk.write_data]
  by_cases hkn : k = n
  · rw [hkn, if_pos rfl]
  · rw [if_neg (by omega)]
    exact h k (by omega)

theorem getD_mem {bs : List Nat} (h : k < bs.length) : bs.getD k 0 ∈ bs := by
  rw [getD_eq_getElem?_getD, getElem?_eq_getElem h]
  exact getElem_mem h

/-- The loop invariant of `write_log`. -/
structure WriteLogAt (s : Io) (n : Nat) (t : Io) : Prop where
  inv : CacheInv s.log.block (· ∈ s.log.block) t
  unlocked : t.Unlocked
  log : t.log = s.log
  disk : Logging s.log.start s.disk t.disk
  logged : Logged s.log.start s.log.block s.view n t.disk
  view : ∀ c, Home s.log.start c → t.view c = s.view c

theorem wp_writeLog (h : CacheInv s.log.block (· ∈ s.log.block) s)
    (hu : s.Unlocked) (hbs : ∀ c ∈ s.log.block, Home s.log.start c)
    (hlen : s.log.block.length ≤ LOGBLOCKS)
    (hp : C.panic .bgetNoBuffers ∨ s.log.block.length + 1 < NBUF)
    (hC : ∀ t : Io, Logging s.log.start s.disk t.disk → t.log = s.log →
      t.Coherent (· ∈ s.log.block) → C.inv t) :
    wp C (fun _ t => WriteLogAt s s.log.block.length t) (writeLog me) s := by
  refine ⟨hC s (Logging.refl _ _) rfl h.coh, ?_⟩
  refine wp_upto
    ⟨h, hu, rfl, Logging.refl _ _, fun k hk => absurd hk (by omega), fun _ _ => rfl⟩ ?_
  intro n t hn hJ
  have hsrc := getD_mem hn
  have hdst : s.log.start + n + 1 ∉ s.log.block := fun hc =>
    (hbs _ hc).ne_log (Nat.lt_of_lt_of_le hn hlen) rfl
  have hne : s.log.start + n + 1 ≠ s.log.block.getD n 0 := by
    intro he
    rw [he] at hdst
    exact hdst hsrc
  have hCt : ∀ u : Io, u.disk = t.disk → u.log = t.log →
      u.Coherent (· ∈ s.log.block) → C.inv u := by
    intro u hd hl hco
    exact hC u (by rw [hd]; exact hJ.disk) (hl.trans hJ.log) hco
  rw [wp_bind]
  simp only [wp_bind (p := bread me ROOTDEV (s.log.block.getD n 0))]
  refine wp_bread_bread hJ.inv hJ.unlocked hne (Or.inr hsrc) hCt hp ?_
  intro i j u hinv pr hview
  have hV : (u.buf j).data = s.view (s.log.block.getD n 0) := by
    rw [pr.dataR, hJ.view _ (hbs _ hsrc)]
  have hlogging := hJ.disk.write (Nat.lt_of_lt_of_le hn hlen) (s.view (s.log.block.getD n 0))
  have hCu : ∀ x : Io, x.disk = u.disk → x.log = u.log →
      x.Coherent (· ∈ s.log.block) → C.inv x :=
    fun x hd hl hco => hCt x (hd.trans pr.disk) (hl.trans pr.log) hco
  rw [wp_bind, bufData, wp_look]
  refine ⟨hCu u rfl rfl hinv.coh, ?_⟩
  rw [hV]
  refine wp_modifyData_bwrite hinv pr.isL pr.lockL hCu ?_ ?_
  · intro x hd hl hco
    exact hC x (by rw [hd, pr.disk]; exact hlogging) (hl.trans (pr.log.trans hJ.log)) hco
  intro x w hx
  have hxj : x.buf j = u.buf j := w.others j (Ne.symm pr.ne)
  have hxd : x.disk = t.disk.write (s.log.start + n + 1) (s.view (s.log.block.getD n 0)) := by
    rw [w.disk, pr.disk]
  have hxl : x.log = s.log := w.log.trans (pr.log.trans hJ.log)
  refine wp_brelse_brelse hx (Ne.symm pr.ne) (by rw [hxj]; exact pr.lockR)
    (by rw [w.buf]; exact pr.lockL) ?_ ?_ ?_ ?_ ?_
  · intro c hc hX
    rw [hxj] at hc
    rw [Buf.Is.inj hc pr.isR] at hX
    exact absurd hsrc hX
  · intro c hc _
    rw [w.buf] at hc
    rw [w.buf, hxd, Buf.Is.inj hc pr.isL, Disk.write_data, if_pos rfl]
  · intro k hkj hki
    rw [w.others k hki]
    exact pr.free k hki hkj
  · intro y hd hl hco
    exact hC y (by rw [hd, hxd]; exact hlogging) (hl.trans hxl) hco
  · intro y hy hyu hd hl hyv
    refine ⟨hy, hyu, hl.trans hxl, by rw [hd, hxd]; exact hlogging, ?_, ?_⟩
    · rw [hd, hxd]
      exact hJ.logged.write
    · intro c hhome
      rw [hyv, w.view, if_neg (hhome.ne_log (Nat.lt_of_lt_of_le hn hlen)), hview c (Decidable.em _).symm,
        hJ.view c hhome]

/-! ## `install_trans` -/

/-- The device while `install_trans` runs: only the blocks of the header have changed. -/
structure Installing (start : Nat) (bs : List Nat) (d₀ d : Disk) : Prop where
  keep : ∀ c, c ∉ bs → d.data c = d₀.data c
  heads : d.heads start = d₀.heads start

theorem Installing.refl (start : Nat) (bs : List Nat) (d : Disk) : Installing start bs d d :=
  ⟨fun _ _ => rfl, rfl⟩

theorem Installing.write {start : Nat} {bs : List Nat} {d₀ d : Disk} (h : Installing start bs d₀ d)
    (hc : c ∈ bs) (hs : c ≠ start) (v : Block) : Installing start bs d₀ (d.write c v) := by
  constructor
  · intro e he
    have hne : e ≠ c := by
      rintro rfl
      exact he hc
    rw [Disk.write_data, if_neg hne]
    exact h.keep e he
  · rw [Disk.heads_write_ne _ _ hs]
    exact h.heads

theorem drop_eq_getD_cons {bs : List Nat} (h : n < bs.length) :
    bs.drop n = bs.getD n 0 :: bs.drop (n + 1) := by
  rw [getD_eq_getElem?_getD, getElem?_eq_getElem h]
  exact drop_eq_getElem_cons h

/-- The blocks that `install_trans` unpins. -/
def pinsOf (recovering : Bool) (bs : List Nat) : List Nat := if recovering then [] else bs

/-- The loop invariant of `install_trans`: the first `n` blocks hold their contents `V`. -/
structure InstallAt (V : Nat → Block) (recovering : Bool) (s : Io) (n : Nat)
    (t : Io) : Prop where
  inv : CacheInv ((pinsOf recovering s.log.block).drop n)
    (· ∈ (pinsOf recovering s.log.block).drop n) t
  unlocked : t.Unlocked
  log : t.log = s.log
  disk : Installing s.log.start s.log.block s.disk t.disk
  done : ∀ c ∈ s.log.block.take n, t.disk.data c = V c
  view : ∀ c, t.view c = if c ∈ s.log.block.take n then V c else s.view c

/-- The pins that are left after one more round. -/
theorem pinsOf_drop (recovering : Bool) {bs : List Nat} (hn : n < bs.length) :
    (pinsOf recovering bs).drop n =
      if recovering then (pinsOf recovering bs).drop (n + 1)
      else bs.getD n 0 :: (pinsOf recovering bs).drop (n + 1) := by
  cases recovering with
  | true => simp [pinsOf]
  | false =>
    exact drop_eq_getD_cons hn

/-- `if(recovering == 0) bunpin(dbuf)`, with the buffer of block `b` locked. -/
theorem wp_unpin {recovering : Bool} {P' : List Nat} {i : Fin NBUF} {β : Type} {Q : β → Io → Prop}
    {rest : IoM β} (h : CacheInv P X s) (hi : (s.buf i).Is ROOTDEV b)
    (hP : P = if recovering then P' else b :: P') (hb : recovering = false → b ∉ P')
    (hC : ∀ t : Io, t.disk = s.disk → t.log = s.log → t.Coherent X → C.inv t)
    (hQ : ∀ t : Io, CacheInv P' X t → t.disk = s.disk → t.log = s.log →
      (∀ k, ∃ r, t.buf k = { s.buf k with refcnt := r }) → (∀ e, t.view e = s.view e) →
      wp C Q rest t) :
    wp C Q (do
      if recovering then pure () else update (bunpin i)
      rest) s := by
  cases recovering with
  | true =>
    subst hP
    exact hQ s h rfl rfl (fun k => ⟨_, rfl⟩) fun _ => rfl
  | false =>
    subst hP
    have hu := h.bunpin hi (hb rfl)
    refine ⟨hC _ rfl rfl hu.coh, hQ _ hu rfl rfl ?_ (view_setRefcnt h.uniq _)⟩
    intro k
    by_cases hki : k = i
    · subst hki
      exact ⟨_, setBuf_buf_same _ _ _⟩
    · exact ⟨(s.buf k).refcnt, setBuf_buf_ne _ _ hki⟩

theorem mem_take_succ_getD {bs : List Nat} (hn : n < bs.length) :
    c ∈ bs.take (n + 1) ↔ c ∈ bs.take n ∨ c = bs.getD n 0 := by
  rw [take_succ_eq_append_getElem hn, mem_append, mem_singleton,
    getD_eq_getElem?_getD, getElem?_eq_getElem hn, Option.getD_some]

/-- One round of `install_trans`: log block `l` is copied to its home `c`. -/
theorem wp_installRound {recovering : Bool} {R : List Nat} {l : Nat}
    (h : CacheInv P (· ∈ P) s) (hu : s.Unlocked)
    (hP : P = if recovering then R else c :: R) (hb : recovering = false → c ∉ R)
    (hl : l ∉ P) (hne : l ≠ c)
    (hp : C.panic .bgetNoBuffers ∨ P.length + 1 < NBUF)
    (hC : ∀ t : Io, t.disk = s.disk ∨ t.disk = s.disk.write c (s.view l) → t.log = s.log →
      t.Coherent (· ∈ P) → C.inv t) :
    wp C (fun _ t => CacheInv R (· ∈ R) t ∧ t.Unlocked ∧ t.log = s.log ∧
        t.disk = s.disk.write c (s.view l) ∧
        ∀ e, t.view e = if e = c then s.view l else s.view e)
      (do
        let lbuf ← bread me ROOTDEV l
        let dbuf ← bread me ROOTDEV c
        let d ← bufData lbuf
        modifyData dbuf fun _ => d
        bwrite me dbuf
        if recovering then pure () else update (bunpin dbuf)
        brelse me lbuf
        brelse me dbuf) s := by
  have hexempt : ∀ e, e ∈ P → e ≠ c → e ∈ R := by
    intro e he hec
    rw [hP] at he
    split at he
    · exact he
    · exact (mem_cons.mp he).resolve_left hec
  rw [wp_bind]
  simp only [wp_bind (p := bread me ROOTDEV c)]
  refine wp_bread_bread h hu hne (Decidable.em _).symm (fun t hd => hC t (Or.inl hd)) hp ?_
  intro i j t ht pr hview
  have hCt : ∀ x : Io, x.disk = t.disk → x.log = t.log →
      x.Coherent (· ∈ P) → C.inv x :=
    fun x hd hlx hco => hC x (Or.inl (hd.trans pr.disk)) (hlx.trans pr.log) hco
  rw [wp_bind, bufData, wp_look]
  refine ⟨hCt t rfl rfl ht.coh, ?_⟩
  rw [pr.dataL]
  refine wp_modifyData_bwrite ht pr.isR pr.lockR hCt ?_ ?_
  · intro x hd hlx hco
    exact hC x (Or.inr (by rw [hd, pr.disk])) (hlx.trans pr.log) hco
  intro x w hx
  have hxd : x.disk = s.disk.write c (s.view l) := by rw [w.disk, pr.disk]
  have hxl : x.log = s.log := w.log.trans pr.log
  have hxi : x.buf i = t.buf i := w.others i pr.ne
  have hCx : ∀ y : Io, y.disk = x.disk → y.log = x.log →
      y.Coherent (· ∈ P) → C.inv y :=
    fun y hd hly hco => hC y (Or.inr (hd.trans hxd)) (hly.trans hxl) hco
  refine wp_unpin hx (by rw [w.buf]; exact pr.isR) hP hb hCx ?_
  intro y hy hyd hyl hyb hyv
  -- the home block agrees with the device again, so it needs no exemption
  obtain ⟨ri, hyi⟩ := hyb i
  obtain ⟨rj, hyj⟩ := hyb j
  have hylock : (y.buf j).lock ≠ none := by rw [hyj, w.buf]; simp [pr.lockR]
  have hy' : CacheInv R (· ∈ R) y := by
    have hyj' : (y.buf j).Is ROOTDEV c := by rw [hyj, w.buf]; exact pr.isR
    exact (hy.of_locked hyj' hylock).weaken fun e he => hexempt e he.1 he.2
  refine wp_brelse_brelse hy' pr.ne (by rw [hyi, hxi]; exact pr.lockL)
    (by rw [hyj, w.buf]; exact pr.lockR) ?_ ?_ ?_ ?_ ?_
  · intro e he _
    rw [hyi, hxi] at he
    have hel := Buf.Is.inj he pr.isL
    rw [hyi, hxi, hyd, hxd, Disk.write_data, hel, if_neg hne, pr.dataL, h.view_eq_disk hu hl]
  · intro e he _
    rw [hyj, w.buf] at he
    rw [hyj, w.buf, hyd, hxd, Buf.Is.inj he pr.isR, Disk.write_data, if_pos rfl]
  · intro k hki hkj
    obtain ⟨r, hyk⟩ := hyb k
    rw [hyk, w.others k hkj]
    exact pr.free k hki hkj
  · intro z hd hlz hco
    refine hCx z (hd.trans hyd) (hlz.trans hyl) (hco.mono ?_)
    intro e heP
    rw [hP]
    split
    · exact heP
    · exact mem_cons_of_mem c heP
  · intro z hz hzu hd hlz hzv
    refine ⟨hz, hzu, hlz.trans (hyl.trans hxl), hd.trans (hyd.trans hxd), ?_⟩
    intro e
    rw [hzv, hyv, w.view, hview e (Decidable.em _).symm]

theorem wp_installTrans (recovering : Bool) {V : Nat → Block}
    (h : CacheInv (pinsOf recovering s.log.block)
      (· ∈ pinsOf recovering s.log.block) s)
    (hu : s.Unlocked) (hbs : ∀ c ∈ s.log.block, Home s.log.start c)
    (hlen : s.log.block.length ≤ LOGBLOCKS) (hnd : recovering = false → s.log.block.Nodup)
    (hV : Logged s.log.start s.log.block V s.log.block.length s.disk)
    (hp : C.panic .bgetNoBuffers ∨ (pinsOf recovering s.log.block).length + 1 < NBUF)
    (hC : ∀ t : Io, Installing s.log.start s.log.block s.disk t.disk → t.log = s.log →
      t.Coherent (· ∈ pinsOf recovering s.log.block) → C.inv t) :
    wp C (fun _ t => InstallAt V recovering s s.log.block.length t)
      (installTrans me recovering) s := by
  generalize hpin : pinsOf recovering s.log.block = pin at h hp hC
  refine ⟨hC s (Installing.refl _ _ _) rfl h.coh, ?_⟩
  refine wp_upto ⟨?_, hu, rfl, Installing.refl _ _ _, ?_, ?_⟩ ?_
  · rw [hpin]
    exact h
  · intro c hc
    simp at hc
  · intro c
    simp
  intro n t hn hJ
  have hdst := getD_mem hn
  have hsub : ∀ e, e ∈ (pinsOf recovering s.log.block).drop n → e ∈ pin ∧ e ∈ s.log.block := by
    intro e he
    have he := mem_of_mem_drop he
    rw [hpin] at he
    refine ⟨he, ?_⟩
    rw [← hpin] at he
    cases recovering with
    | true => simp [pinsOf] at he
    | false => exact he
  have hlog : s.log.start + n + 1 ∉ (pinsOf recovering s.log.block).drop n := fun he =>
    (hbs _ (hsub _ he).2).ne_log (Nat.lt_of_lt_of_le hn hlen) rfl
  have hne : s.log.start + n + 1 ≠ s.log.block.getD n 0 := fun he =>
    (hbs _ hdst).ne_log (Nat.lt_of_lt_of_le hn hlen) he.symm
  have hlogV : t.view (s.log.start + n + 1) = V (s.log.block.getD n 0) := by
    rw [hJ.inv.view_eq_disk hJ.unlocked hlog, hJ.disk.keep _ ?_, hV n hn]
    intro he
    exact (hbs _ he).ne_log (Nat.lt_of_lt_of_le hn hlen) rfl
  have hnext := hJ.disk.write hdst (hbs _ hdst).ne_start (V (s.log.block.getD n 0))
  refine wp_mono (wp_installRound
    hJ.inv hJ.unlocked (pinsOf_drop recovering hn) ?_ hlog hne ?_ ?_) ?_
  · rintro rfl he
    have hnd' := (hnd rfl).sublist (drop_sublist n _)
    rw [show s.log.block.drop n = _ from pinsOf_drop false hn] at hnd'
    exact (nodup_cons.mp hnd').1 he
  · refine hp.imp id fun hp => ?_
    rw [length_drop, hpin]
    omega
  · intro x hd hl hco
    refine hC x ?_ (hl.trans hJ.log) (hco.mono fun e he => (hsub e he).1)
    rcases hd with hd | hd
    · rw [hd]; exact hJ.disk
    · rw [hd, hlogV]; exact hnext
  · rintro _ u ⟨hinv, huu, hul, hud, huv⟩
    rw [hlogV] at hud huv
    refine ⟨hinv, huu, hul.trans hJ.log, by rw [hud]; exact hnext, ?_, ?_⟩
    · intro c hc
      rw [hud, Disk.write_data]
      split
      · rename_i heq; rw [heq]
      · rename_i hne
        exact hJ.done c (((mem_take_succ_getD hn).mp hc).resolve_right hne)
    · intro c
      rw [huv c, hJ.view c]
      by_cases hcn : c = s.log.block.getD n 0
      · rw [if_pos hcn, if_pos ((mem_take_succ_getD hn).mpr (Or.inr hcn)), hcn]
      · rw [if_neg hcn]
        refine if_congr ?_ rfl rfl
        rw [mem_take_succ_getD hn]
        exact ⟨Or.inl, fun h => h.resolve_right hcn⟩

/-! ## `commit` -/

/-- The device between the two header writes of `commit`, for the logged blocks `bs` with
    contents `V`: the transaction stands in the log, the other home blocks are untouched. -/
structure HeadOut (start : Nat) (bs : List Nat) (V : Nat → Block) (d₀ d : Disk) : Prop where
  heads : d₀.heads start < d.heads start
  head : decodeHead (d.data start) = bs
  log : Logged start bs V bs.length d
  keep : ∀ c, Home start c → c ∉ bs → d.data c = d₀.data c

/-- The device after the second header write. -/
structure HeadCleared (start : Nat) (bs : List Nat) (V : Nat → Block) (d₀ d : Disk) : Prop where
  heads : d₀.heads start < d.heads start
  head : headN (d.data start) = 0
  home : ∀ c, Home start c → d.data c = if c ∈ bs then V c else d₀.data c

/-- The device while `commit` runs. -/
def CommitPhase (start : Nat) (bs : List Nat) (V : Nat → Block) (d₀ d : Disk) : Prop :=
  Logging start d₀ d ∨ HeadOut start bs V d₀ d ∨ HeadCleared start bs V d₀ d

section phases

variable {start : Nat} {bs : List Nat} {V : Nat → Block} {d₀ d d' : Disk}

/-- The first header write commits the transaction. -/
theorem Logging.headOut (h : Logging start d₀ d) (hlog : Logged start bs V bs.length d)
    (hlen : bs.length ≤ LOGBLOCKS) (hbs : ∀ c ∈ bs, c < 2 ^ 32) (e : Block) :
    HeadOut start bs V d₀ (d.write start (encodeHead e bs)) := by
  constructor
  · rw [Disk.heads_write_same, h.heads]
    exact Nat.lt_succ_self _
  · rw [Disk.write_data, if_pos rfl]
    exact decodeHead_encodeHead e bs hlen hbs
  · intro k hk
    rw [Disk.write_data, if_neg (by omega)]
    exact hlog k hk
  · intro c hc _
    rw [Disk.write_data, if_neg hc.ne_start]
    exact h.keep c (Or.inl hc)

theorem HeadOut.installing (h : HeadOut start bs V d₀ d) (hbs : ∀ c ∈ bs, Home start c)
    (hlen : bs.length ≤ LOGBLOCKS) (hi : Installing start bs d d') :
    HeadOut start bs V d₀ d' := by
  constructor
  · rw [hi.heads]
    exact h.heads
  · rw [hi.keep start fun hc => (hbs _ hc).ne_start rfl]
    exact h.head
  · intro k hk
    rw [hi.keep _ fun hc => (hbs _ hc).ne_log (Nat.lt_of_lt_of_le hk hlen) rfl]
    exact h.log k hk
  · intro c hc hcb
    rw [hi.keep c hcb]
    exact h.keep c hc hcb

/-- The second header write, once everything is installed. -/
theorem HeadOut.cleared (h : HeadOut start bs V d₀ d) (hdone : ∀ c ∈ bs, d.data c = V c)
    (e : Block) : HeadCleared start bs V d₀ (d.write start (encodeHead e [])) := by
  constructor
  · rw [Disk.heads_write_same]
    exact Nat.lt_succ_of_lt h.heads
  · rw [Disk.write_data, if_pos rfl]
    exact headN_encodeHead e [] (Nat.zero_le _)
  · intro c hc
    rw [Disk.write_data, if_neg hc.ne_start]
    by_cases hcb : c ∈ bs
    · rw [if_pos hcb]; exact hdone c hcb
    · rw [if_neg hcb]; exact h.keep c hc hcb

end phases

/-- The state that `commit` leaves, with the in-memory log `l`. -/
structure Committed (l : Log) (s t : Io) : Prop where
  inv : CacheInv [] (fun _ => False) t
  unlocked : t.Unlocked
  log : t.log = l
  phase : CommitPhase s.log.start s.log.block s.view s.disk t.disk
  head : headN (t.disk.data s.log.start) = 0
  disk : ∀ c, Home s.log.start c →
    t.disk.data c = if c ∈ s.log.block then s.view c else s.disk.data c
  view : ∀ c, Home s.log.start c → t.view c = s.view c

/-- What `commit` needs of the state it starts in. -/
structure Committable (s : Io) : Prop where
  inv : CacheInv s.log.block (· ∈ s.log.block) s
  unlocked : s.Unlocked
  home : ∀ c ∈ s.log.block, Home s.log.start c ∧ c < 2 ^ 32
  len : s.log.block.length ≤ LOGBLOCKS
  nodup : s.log.block.Nodup
  head : headN (s.disk.data s.log.start) = 0

theorem wp_commit (h : Committable s)
    (hp : C.panic .bgetNoBuffers ∨ s.log.block.length + 1 < NBUF)
    (hC : ∀ t : Io, CommitPhase s.log.start s.log.block s.view s.disk t.disk →
      t.log = s.log ∨ t.log = { s.log with block := [] } →
      t.Coherent (· ∈ t.log.block) → C.inv t) :
    wp C (fun _ t => Committed { s.log with block := [] } s t) (commit me) s := by
  have hbs : ∀ c ∈ s.log.block, Home s.log.start c := fun c hc => (h.home c hc).1
  have hXstart : s.log.start ∉ s.log.block := fun hc => (hbs _ hc).ne_start rfl
  unfold commit
  rw [wp_bind, wp_look]
  refine ⟨hC s (Or.inl (Logging.refl _ _)) (Or.inl rfl) h.inv.coh, ?_⟩
  by_cases hn : s.log.block.length > 0
  · rw [if_pos hn]
    refine wp_seq (wp_writeLog h.inv h.unlocked hbs h.len hp ?_) ?_
    · intro t hd hl hco
      refine hC t (Or.inl hd) (Or.inl hl) ?_
      rw [hl]; exact hco
    intro _ t ht
    have hout := ht.disk.headOut ht.logged h.len (fun c hc => (h.home c hc).2)
      (t.disk.data s.log.start)
    have hCt : ∀ x : Io, CommitPhase s.log.start s.log.block s.view s.disk x.disk →
        x.log = t.log → x.Coherent (· ∈ s.log.block) → C.inv x := by
      intro x hd hl hco
      have hl := hl.trans ht.log
      refine hC x hd (Or.inl hl) ?_
      rw [hl]; exact hco
    refine wp_seq (wp_writeHead ht.inv ht.unlocked (by rw [ht.log]; exact hXstart) hp ?_ ?_) ?_
    · intro x hd
      exact hCt x (Or.inl (by rw [hd]; exact ht.disk))
    · intro x hd
      rw [ht.log] at hd
      exact hCt x (Or.inr (Or.inl (by rw [hd]; exact hout)))
    rintro _ u ⟨hu, huu, hul, hud, huv⟩
    rw [ht.log] at hul hud huv
    rw [← hud] at hout
    -- from here on the transaction is committed
    rw [← hul] at hu hout hXstart hbs
    have hlen : u.log.block.length ≤ LOGBLOCKS := by rw [hul]; exact h.len
    refine wp_seq (wp_installTrans false hu huu hbs hlen (by rw [hul]; exact fun _ => h.nodup) hout.log
      (by rw [hul]; exact hp) ?_) ?_
    · intro x hd hl hco
      refine hCt x ?_ (hl.trans (hul.trans ht.log.symm)) (by rw [← hul]; exact hco)
      rw [← hul]
      exact Or.inr (Or.inl (hout.installing hbs hlen hd))
    intro _ v hv
    have hdrop : (pinsOf false u.log.block).drop u.log.block.length = [] := drop_length
    have hvinv := hv.inv
    rw [hdrop] at hvinv
    replace hvinv := hvinv.weaken (Y := fun _ => False) fun c hc => by simp at hc
    have hvout := hout.installing hbs hlen hv.disk
    have hvdone : ∀ c ∈ u.log.block, v.disk.data c = s.view c := by
      intro c hc
      exact hv.done c (by rw [take_length]; exact hc)
    have hvl : v.log = s.log := hv.log.trans hul
    have hCv : ∀ x : Io, CommitPhase s.log.start s.log.block s.view s.disk x.disk →
        x.log = { s.log with block := [] } → x.Coherent (fun _ => False) → C.inv x :=
      fun x hd hl hco => hC x hd (Or.inr hl) (hco.mono fun _ => False.elim)
    rw [hul] at hvout hvdone
    unfold clearLog
    rw [wp_bind, wp_update, hvl]
    refine ⟨hCv _ (Or.inr (Or.inl hvout)) rfl hvinv.coh, ?_⟩
    have hwinv : CacheInv [] (fun _ => False) { v with log := { s.log with block := [] } } :=
      ⟨hvinv.uniq, hvinv.valid, hvinv.refs, hvinv.pinned, hvinv.coh⟩
    have hcleared := hvout.cleared hvdone (v.disk.data s.log.start)
    refine wp_mono (wp_writeHead hwinv hv.unlocked id
      (Or.inr (by decide)) ?_ ?_) ?_
    · intro x hd
      exact hCv x (Or.inr (Or.inl (by rw [hd]; exact hvout)))
    · intro x hd
      exact hCv x (Or.inr (Or.inr (by rw [hd]; exact hcleared)))
    · rintro _ x ⟨hx, hxu, hxl, hxd, hxv⟩
      refine ⟨hx, hxu, hxl, Or.inr (Or.inr (by rw [hxd]; exact hcleared)),
        by rw [hxd]; exact hcleared.head, ?_, ?_⟩
      · intro c hc
        rw [hxd]
        exact hcleared.home c hc
      · intro c hhc
        have hxc := hxv c (Or.inl id) hhc.ne_start
        have hvc := hv.view c
        have huc := huv c (Decidable.em _).symm hhc.ne_start
        have htc := ht.view c hhc
        have hlogv : ({ v with log := { s.log with block := [] } } : Io).view c = v.view c := rfl
        rw [hxc, hlogv, hvc, huc, htc]
        split <;> rfl
  · rw [if_neg hn]
    have hnil : s.log.block = [] := length_eq_zero_iff.mp (by omega)
    have hinv := h.inv
    rw [hnil] at hinv
    refine ⟨hinv.weaken fun c hc => by simp at hc, h.unlocked, ?_,
      Or.inl (Logging.refl _ _), h.head, ?_, fun _ _ => rfl⟩
    · rw [← hnil]
    · intro c _
      rw [hnil]
      rfl

/-! ## `begin_op`, `log_write` and `end_op` of a thread that runs alone -/

theorem wp_beginOp (h : C.block ∨ s.log.admits) (hC : C.inv { s with log := s.log.beginOp }) :
    wp C (fun _ t => t = { s with log := s.log.beginOp }) beginOp s := by
  rw [beginOp, wp_atomic]
  by_cases ha : s.log.admits
  · rw [if_pos ha]
    exact ⟨hC, rfl⟩
  · rw [if_neg ha]
    exact h.resolve_right ha

/-- The list of logged blocks after a `log_write`: a block that is already there is absorbed. -/
def absorb (bs : List Nat) (b : Nat) : List Nat := if b ∈ bs then bs else bs ++ [b]

theorem mem_absorb {bs : List Nat} : c ∈ absorb bs b ↔ c ∈ bs ∨ c = b := by
  unfold absorb
  split
  · rename_i hb
    refine ⟨Or.inl, fun hc => hc.elim id ?_⟩
    rintro rfl
    exact hb
  · rw [mem_append, mem_singleton]

theorem nodup_absorb {bs : List Nat} (b : Nat) (h : bs.Nodup) : (absorb bs b).Nodup := by
  unfold absorb
  split
  · exact h
  · rename_i hb
    rw [nodup_append]
    refine ⟨h, nodup_singleton b, ?_⟩
    rintro c hc d hd rfl
    exact hb (mem_singleton.mp hd ▸ hc)

theorem length_absorb_le {bs : List Nat} (b : Nat) : (absorb bs b).length ≤ bs.length + 1 := by
  unfold absorb
  split
  · exact Nat.le_succ _
  · rw [length_append, length_singleton]

/-- What `log_write` changes: the header, and the reference count of a buffer that is new there. -/
structure LogWrote (b : Nat) (s t : Io) : Prop where
  log : t.log = { s.log with block := absorb s.log.block b }
  disk : t.disk = s.disk
  buf : ∀ k, ∃ r, t.buf k = { s.buf k with refcnt := r }
  view : ∀ e, t.view e = s.view e

theorem wp_logWrite {i : Fin NBUF} (h : CacheInv s.log.block X s) (hi : (s.buf i).Is ROOTDEV b)
    (hp : C.panic .tooBigATransaction ∨ s.log.block.length < LOGBLOCKS)
    (ho : C.panic .logWriteOutsideOfTrans ∨ 1 ≤ s.log.outstanding)
    (hC : ∀ t : Io, LogWrote b s t → t.Coherent X → C.inv t) :
    wp C (fun _ t => CacheInv (absorb s.log.block b) X t ∧ LogWrote b s t ∧
      s.log.block.length < LOGBLOCKS) (logWrite i) s := by
  rw [logWrite, wp_atomic, hi.2]
  unfold Log.write
  by_cases hlen : s.log.block.length ≥ LOGBLOCKS
  · rw [if_pos hlen]
    exact hp.resolve_right (by omega)
  rw [if_neg hlen]
  by_cases hout : s.log.outstanding < 1
  · rw [if_pos hout]
    exact ho.resolve_right (by omega)
  rw [if_neg hout]
  by_cases hb : b ∈ s.log.block
  · have habs : absorb s.log.block b = s.log.block := if_pos hb
    have hw : LogWrote b s s := by
      refine ⟨?_, rfl, fun k => ⟨_, rfl⟩, fun _ => rfl⟩
      rw [habs]
    rw [if_pos hb, habs]
    exact ⟨hC s hw h.coh, h, hw, by omega⟩
  · have habs : absorb s.log.block b = s.log.block ++ [b] := if_neg hb
    rw [if_neg hb, habs]
    generalize hl : ({ s.log with block := s.log.block ++ [b] } : Log) = l
    have h' : CacheInv s.log.block X { s with log := l } :=
      ⟨h.uniq, h.valid, h.refs, h.pinned, h.coh⟩
    have hpin := h'.bpin hi hb
    have hw : LogWrote b s (bpin i { s with log := l }) := by
      refine ⟨?_, rfl, ?_, view_setRefcnt h.uniq _⟩
      · rw [habs, hl]; rfl
      · intro k
        by_cases hki : k = i
        · subst hki
          exact ⟨_, setBuf_buf_same _ _ _⟩
        · exact ⟨(s.buf k).refcnt, setBuf_buf_ne _ _ hki⟩
    exact ⟨hC _ hw hpin.coh, hpin, hw, by omega⟩

/-- `end_op` of the only outstanding operation commits. -/
theorem wp_endOp (h : Committable s) (ho : s.log.outstanding = 1)
    (hc : s.log.committing = false)
    (hp : C.panic .bgetNoBuffers ∨ s.log.block.length + 1 < NBUF)
    (hC : ∀ t : Io, CommitPhase s.log.start s.log.block s.view s.disk t.disk →
      t.log.start = s.log.start → t.log.block = s.log.block ∨ t.log.block = [] →
      t.Coherent (· ∈ t.log.block) → C.inv t) :
    wp C (fun _ t => Committed ⟨s.log.start, 0, false, []⟩ s t) (endOp me) s := by
  have hend : s.log.endOp =
      .ok ({ s.log with outstanding := 0, committing := true }, true) := by
    unfold Log.endOp
    simp [ho, hc]
  unfold endOp
  rw [wp_bind, wp_atomic, hend]
  have hcm : Committable { s with log := { s.log with outstanding := 0, committing := true } } :=
    ⟨⟨h.inv.uniq, h.inv.valid, h.inv.refs, h.inv.pinned, h.inv.coh⟩, h.unlocked, h.home,
      h.len, h.nodup, h.head⟩
  refine ⟨hC _ (Or.inl (Logging.refl _ _)) rfl (Or.inl rfl) hcm.inv.coh, ?_⟩
  refine wp_seq (wp_commit hcm hp ?_) ?_
  · intro t hd htl hco
    rcases htl with htl | htl
    · exact hC t hd (by rw [htl]) (Or.inl (by rw [htl])) hco
    · exact hC t hd (by rw [htl]) (Or.inr (by rw [htl])) hco
  · intro _ t ht
    rw [wp_update, ht.log]
    refine ⟨hC _ ht.phase rfl (Or.inr rfl) (ht.inv.coh.mono fun _ => False.elim), ?_⟩
    exact ⟨⟨ht.inv.uniq, ht.inv.valid, ht.inv.refs, ht.inv.pinned, ht.inv.coh⟩, ht.unlocked,
      rfl, ht.phase, ht.head, ht.disk, ht.view⟩

end spec

end Xv6
