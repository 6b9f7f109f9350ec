/-
  `bmap`: the block of a file, allocated if there is none.

  The inode that an operation works on is the in-memory copy, which may be ahead of the disk;
  `nodes` are all inodes with this one in place.  `FileInv` is the block invariant with it, and
  `Extends a a'` says that the inode has in `a'` all references it has in `a`, and perhaps more, and
  that no other inode has changed.

  `awp_bmap_hit`: a block that is there is found and nothing changes.  `awp_bmap`: the block is
  there afterwards, unless every block of the disk is in use, and with this block the transaction
  has logged at most one more than before, the indirect block not counted (`Store.load`).
-/
import Xv6.Fs.Alloc

namespace Xv6.Fs

/-- The inodes on disk, with `x` for inode `n`. -/
def nodes (sb : Superblock) (blk : Nat → Block) (n : Nat) (x : Dinode) : Nat → Dinode :=
  Function.update (diskNode sb blk) n x

/-- The number of blocks in `S`, with the block `ind` or one in its place. -/
def loadOf (S : Finset Nat) (ind : Nat) : Nat :=
  if ind = 0 then S.card + 1 else (insert ind S).card

namespace Store

variable (a : Store) (ip : Nat)

abbrev inum : Nat := (a.mem.itable ip).inum

abbrev copy : Dinode := (a.mem.itable ip).copy

def nodes : Nat → Dinode := Fs.nodes a.mem.sb a.blk (a.inum ip) (a.copy ip)

/-- The `p`-th reference of the inode `ip`. -/
def ref (p : Nat) : Nat := Fs.ref a.blk (a.copy ip) p

/-- How many blocks are logged, with the bitmap and the indirect block, which is counted before it
    is there. -/
def load : Nat := loadOf a.logs (a.ref ip NDIRECT)

/-- The copy of the disk inode changes. -/
def setCopy (f : Dinode → Dinode) : Store :=
  { a with mem := a.mem.setInode ip { a.mem.itable ip with copy := f (a.mem.itable ip).copy } }

end Store

section nodes

variable {sb : Superblock} {blk blk' : Nat → Block} {n i : Nat} {x : Dinode}

@[simp] theorem nodes_self : nodes sb blk n x n = x := by simp [nodes]

theorem nodes_ne (h : i ≠ n) : nodes sb blk n x i = diskNode sb blk i := by
  simp [nodes, Function.update_of_ne h]

/-- With the inode that is on disk, these are the inodes on disk. -/
theorem nodes_disk : nodes sb blk n (diskNode sb blk n) = diskNode sb blk :=
  Function.update_eq_self n _

theorem Store.nodes_inum (a : Store) (ip : Nat) : a.nodes ip (a.inum ip) = a.copy ip := by
  exact nodes_self

theorem Store.nodes_disk (a : Store) {ip i : Nat} (h : i ≠ a.inum ip) :
    a.nodes ip i = diskNode a.mem.sb a.blk i := by
  exact nodes_ne h

@[simp] theorem Store.setCopy_copy (a : Store) (ip : Nat) (f : Dinode → Dinode) :
    (a.setCopy ip f).copy ip = f (a.copy ip) := by
  simp [Store.setCopy, Store.copy, Mem.setInode]

@[simp] theorem Store.setCopy_inum (a : Store) (ip : Nat) (f : Dinode → Dinode) :
    (a.setCopy ip f).inum ip = a.inum ip := by
  simp [Store.setCopy, Store.inum, Mem.setInode]

end nodes

section load

variable {S : Finset Nat} {b c ind : Nat}

theorem card_le_loadOf : S.card ≤ loadOf S ind := by
  unfold loadOf
  split
  · exact Nat.le_succ _
  · exact Finset.card_le_card (Finset.subset_insert _ _)

theorem loadOf_le : loadOf S ind ≤ S.card + 1 := by
  unfold loadOf
  split
  · exact le_refl _
  · exact Finset.card_insert_le _ _

theorem loadOf_insert_le : loadOf (insert c S) ind ≤ loadOf S ind + 1 := by
  unfold loadOf
  split
  · exact Nat.add_le_add_right (Finset.card_insert_le _ _) 1
  · rw [Finset.insert_comm]
    exact Finset.card_insert_le _ _

/-- The indirect block is counted already. -/
theorem loadOf_insert_ind (h : ind ≠ 0) : loadOf (insert ind S) ind = loadOf S ind := by
  unfold loadOf
  rw [if_neg h, if_neg h, Finset.insert_idem]

/-- So is one that is new. -/
theorem loadOf_new (h : b ≠ 0) : loadOf (insert b S) b ≤ loadOf S 0 := by
  rw [loadOf_insert_ind h]
  exact loadOf_le

end load

/-! ## Taking a free block -/

section attach

variable {sb : Superblock} {blk blk' : Nat → Block} {n p b : Nat} {x x' : Dinode}

/-- Inode `n` gets the free block `b` as its `p`-th reference. -/
theorem Sound.attach (g : Geometry sb) (h : Sound sb blk (nodes sb blk n x))
    (hn : n < sb.ninodes) (ht : x.type ≠ 0) (hb : b < sb.size) (hfree : used sb blk b = false)
    (href : ∀ q, ref blk' x' q = if q = p then b else ref blk x q)
    (hused : ∀ c, c < sb.size → used sb blk' c = (decide (c = b) || used sb blk c))
    (hmeta : ∀ c, c < sb.bmapstart → blk' c = blk c)
    (hdata : ∀ c, datastart sb ≤ c → c ≠ b → c ≠ x.addrs NDIRECT → blk' c = blk c) :
    Keeps sb (nodes sb blk n x) n blk blk' ∧ Sound sb blk' (nodes sb blk' n x') := by
  have hlive : Live sb (nodes sb blk n x) n := ⟨hn, by rw [nodes_self]; exact ht⟩
  have hk : Keeps sb (nodes sb blk n x) n blk blk' := by
    refine h.keeps g hlive hmeta ?_
    intro c hc hu hno
    refine hdata c hc ?_ ?_
    · intro hcb
      rw [hcb, hfree] at hu
      cases hu
    · intro hci
      have := hno NDIRECT
      rw [nodes_self] at this
      exact this hci.symm
  refine ⟨hk, h.step hlive hk ?_ g.data ?_ ?_ ?_ ?_⟩
  · intro i hi hne
    rw [nodes_ne hne, nodes_ne hne, hk.node i hi hne]
  · intro q h0
    rw [nodes_self, nodes_self, href] at *
    split
    · exact Or.inr ⟨hfree, hb⟩
    · exact Or.inl rfl
  · intro q r heq h0
    rw [nodes_self] at heq h0
    rw [href, href] at heq
    rw [href] at h0
    -- a block that is referenced is marked, so it is not `b`
    have hne : ∀ q, ref blk x q ≠ 0 → ref blk x q ≠ b := by
      intro q h0 hqb
      have := h.marked n q hlive (by rw [nodes_self]; exact h0)
      rw [nodes_self, hqb, hfree] at this
      cases this
    split at heq <;> split at heq
    · rename_i hq hr
      exact hq.trans hr.symm
    · exact absurd heq.symm (hne r (by rw [← heq]; rename_i hq _; rw [if_pos hq] at h0; exact h0))
    · rename_i hq _
      rw [if_neg hq] at h0
      exact absurd heq (hne q h0)
    · rename_i hq _
      rw [if_neg hq] at h0
      exact (h.inj n q n r hlive hlive (by rw [nodes_self]; exact heq)
        (by rw [nodes_self]; exact h0)).2
  · intro q h0
    rw [nodes_self] at h0 ⊢
    rw [href] at h0 ⊢
    split
    · rw [hused b hb]
      simp
    · rename_i hq
      rw [if_neg hq] at h0
      have hr := h.range n q hlive (by rw [nodes_self]; exact h0)
      have hm := h.marked n q hlive (by rw [nodes_self]; exact h0)
      rw [nodes_self] at hr hm
      rw [hused _ hr.2, hm, Bool.or_true]
  · intro c hc hu _
    rw [hused c hc, hu, Bool.or_true]

end attach

/-! ## The invariant of the inode in memory -/

structure FileInv (ip : Nat) (a : Store) : Prop where
  lt : a.inum ip < a.mem.sb.ninodes
  type : (a.copy ip).type ≠ 0
  fits : (a.copy ip).Fits
  sound : Sound a.mem.sb a.blk (a.nodes ip)
  others : ∀ i, Live a.mem.sb (a.nodes ip) i → i ≠ a.inum ip → Whole a.blk (a.nodes ip i)

/-- The inode `ip` has in `a'` the references it has in `a`, and perhaps more; of the other inodes
    nothing has changed. -/
structure Extends (ip : Nat) (a a' : Store) : Prop where
  ready : Ready a'
  inv : FileInv ip a'
  held : a'.held = a.held
  txn : ∀ c ∈ a.txn, c ∈ a'.txn
  mem : ∃ addrs, a'.mem = (a.setCopy ip fun x => { x with addrs := addrs }).mem
  keeps : Keeps a.mem.sb (a.nodes ip) (a.inum ip) a.blk a'.blk
  ref : ∀ p, a.ref ip p ≠ 0 → a'.ref ip p = a.ref ip p

/-- So it has, and the contents of its blocks are the same. -/
structure Grown (ip : Nat) (a a' : Store) : Prop extends Extends ip a a' where
  block : ∀ p, a.ref ip p ≠ 0 → p ≠ NDIRECT → a'.blk (a.ref ip p) = a.blk (a.ref ip p)

section grown

variable {full : Prop} {ip : Nat} {a a' a'' : Store}

theorem Ready.setCopy (r : Ready a) (f : Dinode → Dinode) : Ready (a.setCopy ip f) :=
  ⟨r.geo, r.dirty, r.nodup⟩

theorem FileInv.live (h : FileInv ip a) : Live a.mem.sb (a.nodes ip) (a.inum ip) := by
  refine ⟨h.lt, ?_⟩
  rw [a.nodes_inum]
  exact h.type

theorem FileInv.range (h : FileInv ip a) {p : Nat} (h0 : a.ref ip p ≠ 0) :
    datastart a.mem.sb ≤ a.ref ip p ∧ a.ref ip p < a.mem.sb.size := by
  have := h.sound.range _ p h.live
  rw [a.nodes_inum] at this
  exact this h0

theorem FileInv.marked (h : FileInv ip a) {p : Nat} (h0 : a.ref ip p ≠ 0) :
    used a.mem.sb a.blk (a.ref ip p) = true := by
  have := h.sound.marked _ p h.live
  rw [a.nodes_inum] at this
  exact this h0

theorem FileInv.inj (h : FileInv ip a) {p q : Nat} (heq : a.ref ip p = a.ref ip q)
    (h0 : a.ref ip p ≠ 0) : p = q := by
  have := h.sound.inj _ p _ q h.live h.live
  rw [a.nodes_inum] at this
  exact (this heq h0).2

theorem Extends.refl (r : Ready a) (h : FileInv ip a) : Extends ip a a where
  ready := r
  inv := h
  held := rfl
  txn := fun _ hc => hc
  mem := by
    refine ⟨(a.copy ip).addrs, ?_⟩
    show a.mem = a.mem.setInode ip (a.mem.itable ip)
    unfold Mem.setInode
    rw [Function.update_eq_self]
  keeps := Keeps.refl
  ref := fun _ _ => rfl

theorem Grown.refl (r : Ready a) (h : FileInv ip a) : Grown ip a a :=
  ⟨Extends.refl r h, fun _ _ _ => rfl⟩

theorem Extends.sb (h : Extends ip a a') : a'.mem.sb = a.mem.sb := by
  obtain ⟨addrs, hmem⟩ := h.mem
  rw [hmem]
  rfl

theorem Extends.inum (h : Extends ip a a') : a'.inum ip = a.inum ip := by
  obtain ⟨addrs, hmem⟩ := h.mem
  unfold Store.inum
  rw [hmem]
  exact a.setCopy_inum ip _

theorem Extends.copy (h : Extends ip a a') :
    ∃ addrs, a'.copy ip = { a.copy ip with addrs := addrs } := by
  obtain ⟨addrs, hmem⟩ := h.mem
  refine ⟨addrs, ?_⟩
  unfold Store.copy
  rw [hmem]
  exact a.setCopy_copy ip _

theorem Extends.nodes_ne (h : Extends ip a a') {i : Nat} (hi : i < a.mem.sb.ninodes)
    (hne : i ≠ a.inum ip) : a'.nodes ip i = a.nodes ip i := by
  rw [a.nodes_disk hne, a'.nodes_disk (by rw [h.inum]; exact hne), h.sb, h.keeps.node i hi hne]

theorem Extends.trans (h : Extends ip a a') (h' : Extends ip a' a'') : Extends ip a a'' where
  ready := h'.ready
  inv := h'.inv
  held := h'.held.trans h.held
  txn := fun c hc => h'.txn c (h.txn c hc)
  mem := by
    obtain ⟨addrs, hmem⟩ := h.mem
    obtain ⟨addrs', hmem'⟩ := h'.mem
    refine ⟨addrs', ?_⟩
    rw [hmem']
    unfold Store.setCopy at hmem ⊢
    rw [hmem]
    simp [Mem.setInode]
  keeps := by
    have hk := h'.keeps
    rw [h.sb, h.inum] at hk
    exact h.keeps.trans hk fun i hi hne => h.nodes_ne hi hne
  ref := by
    intro p h0
    have hr := h.ref p h0
    rw [← hr] at h0
    rw [h'.ref p h0, hr]

theorem Grown.trans (h : Grown ip a a') (h' : Grown ip a' a'') : Grown ip a a'' := by
  refine ⟨h.toExtends.trans h'.toExtends, ?_⟩
  intro p h0 hp
  have hr := h.ref p h0
  have hb := h'.block p (by rw [hr]; exact h0) hp
  rw [hr] at hb
  rw [hb, h.block p h0 hp]

theorem FileInv.next (h : FileInv ip a) (hsb : a'.mem.sb = a.mem.sb) (hin : a'.inum ip = a.inum ip)
    (ht : (a'.copy ip).type ≠ 0) (hf : (a'.copy ip).Fits)
    (hk : Keeps a.mem.sb (a.nodes ip) (a.inum ip) a.blk a'.blk)
    (hs : Sound a'.mem.sb a'.blk (a'.nodes ip)) : FileInv ip a' := by
  refine ⟨by rw [hin, hsb]; exact h.lt, ht, hf, hs, ?_⟩
  intro i hl hi
  have hlt : i < a.mem.sb.ninodes := by
    rw [← hsb]
    exact hl.1
  rw [hin] at hi
  have hnode : a'.nodes ip i = a.nodes ip i := by
    rw [a'.nodes_disk (by rw [hin]; exact hi), a.nodes_disk hi, hsb, hk.node i hlt hi]
  have hl' : Live a.mem.sb (a.nodes ip) i := by
    refine ⟨hlt, ?_⟩
    rw [← hnode]
    exact hl.2
  rw [hnode]
  exact hk.whole hl' hi (h.others i hl' hi)

/-- A block in use is none of the bitmap. -/
theorem ne_bblock {sb : Superblock} {b c : Nat} (hb : b < sb.size) (hc : datastart sb ≤ c) :
    c ≠ BBLOCK b sb := by
  have := bblock_range hb
  omega

end grown

/-! ## Reading a reference -/

section bmap

variable {full : Prop} {ip bn k b p : Nat} {a : Store} {Q : Nat → Store → Prop}

/-- The reference to the indirect block. -/
theorem Store.ref_ind : a.ref ip NDIRECT = (a.copy ip).addrs NDIRECT := ref_direct (le_refl _)

/-- The references after `ip->addrs[p] = b` with a block that `balloc` gave out. -/
theorem ref_setAddr (h : FileInv ip a) (hp : p ≤ NDIRECT) (h0 : (a.copy ip).addrs p = 0)
    (hs : b < a.mem.sb.size) (hfree : used a.mem.sb a.blk b = false) (q : Nat) :
    ref (a.alloc b).blk { a.copy ip with addrs := Function.update (a.copy ip).addrs p b } q =
      if q = p then b else a.ref ip q := by
  by_cases hq : q ≤ NDIRECT
  · rw [ref_direct hq]
    show Function.update (a.copy ip).addrs p b q = _
    rw [Function.update_apply]
    split
    · rfl
    · exact (ref_direct hq).symm
  · rw [if_neg (by omega)]
    rcases eq_or_ne p NDIRECT with hpi | hpi
    · -- the new indirect block is zero, and there was none before
      rw [hpi] at h0 ⊢
      refine Eq.trans ?_ (ref_none (by omega) h0).symm
      unfold ref
      rw [if_neg hq]
      simp only [Function.update_self, alloc_blk, getUint_zero, ite_self]
    · have hsame : Function.update (a.copy ip).addrs p b NDIRECT = (a.copy ip).addrs NDIRECT :=
        Function.update_of_ne hpi.symm _ _
      have hblk : (a.copy ip).addrs NDIRECT ≠ 0 →
          (a.alloc b).blk ((a.copy ip).addrs NDIRECT) = a.blk ((a.copy ip).addrs NDIRECT) := by
        intro hind
        have hind' : a.ref ip NDIRECT ≠ 0 := by
          exact hind
        have hr := h.range hind'
        have hm := h.marked hind'
        rw [Store.ref_ind] at hr hm
        refine alloc_blk_ne ?_ (ne_bblock hs hr.1)
        intro hib
        rw [hib, hfree] at hm
        cases hm
      refine Eq.trans ?_ (ref_congr hblk q)
      unfold ref
      simp only [if_neg hq, hsame]

/-- What `bmap` leads to: the block `addr`, or 0 if the disk is full. -/
structure Mapped (ip p addr : Nat) (a a' : Store) : Prop extends Grown ip a a' where
  found : a'.ref ip p = addr
  load : loadOf (insert addr a'.logs) (a'.ref ip NDIRECT) ≤ a.load ip + 1
  full : addr = 0 → ∀ b, b < a.mem.sb.size → used a.mem.sb a'.blk b = true

theorem Mapped.setAddr (r : Ready a) (h : FileInv ip a) (hp : p ≤ NDIRECT)
    (h0 : (a.copy ip).addrs p = 0) (hb : datastart a.mem.sb ≤ b) (hs : b < a.mem.sb.size)
    (hfree : used a.mem.sb a.blk b = false) :
    Mapped ip p b a
      ((a.alloc b).setCopy ip fun x => { x with addrs := Function.update x.addrs p b }) := by
  have hb0 : b ≠ 0 := by
    have := r.geo.order
    omega
  have hcopy : ((a.alloc b).setCopy ip fun x => { x with addrs := Function.update x.addrs p b }).copy
      ip = { a.copy ip with addrs := Function.update (a.copy ip).addrs p b } :=
    (a.alloc b).setCopy_copy ip _
  have hinum : ((a.alloc b).setCopy ip fun x =>
      { x with addrs := Function.update x.addrs p b }).inum ip = a.inum ip :=
    (a.alloc b).setCopy_inum ip _
  have href := ref_setAddr h hp h0 hs hfree
  have hmeta : ∀ c, c < a.mem.sb.bmapstart → (a.alloc b).blk c = a.blk c := by
    intro c hc
    have := bblock_range hs
    exact alloc_blk_ne (by omega) (by omega)
  have hsound := h.sound.attach r.geo h.lt h.type hs hfree href
    (fun c hc => used_alloc hb hc) hmeta
    (fun c hc hcb _ => alloc_blk_ne hcb (ne_bblock hs hc))
  have hinv : FileInv ip ((a.alloc b).setCopy ip fun x =>
      { x with addrs := Function.update x.addrs p b }) := by
    refine h.next rfl hinum (by rw [hcopy]; exact h.type) ?_ hsound.1 ?_
    · rw [hcopy]
      have hw := r.geo.width
      refine ⟨h.fits.size, ?_, ?_⟩
      · intro j
        show Function.update (a.copy ip).addrs p b j < 2 ^ 32
        rw [Function.update_apply]
        split
        · omega
        · exact h.fits.addrs j
      · intro j hj
        show Function.update (a.copy ip).addrs p b j = 0
        rw [Function.update_of_ne (by omega)]
        exact h.fits.out j hj
    · unfold Store.nodes
      rw [hcopy, hinum]
      exact hsound.2
  have hrefs : ∀ q, ((a.alloc b).setCopy ip fun x =>
      { x with addrs := Function.update x.addrs p b }).ref ip q = if q = p then b else a.ref ip q := by
    intro q
    unfold Store.ref
    rw [hcopy]
    exact href q
  refine ⟨⟨⟨r.write.write.setCopy _, hinv, rfl, ?_, ⟨_, rfl⟩, hsound.1, ?_⟩, ?_⟩, ?_, ?_,
    fun hz => absurd hz hb0⟩
  · intro c hc
    exact mem_absorb.mpr (Or.inl (mem_absorb.mpr (Or.inl hc)))
  · intro q hq
    rw [hrefs, if_neg]
    intro hqp
    rw [hqp] at hq
    exact hq ((ref_direct hp).trans h0)
  · intro q hq _
    refine alloc_blk_ne ?_ (ne_bblock hs (h.range hq).1)
    intro hqb
    have := h.marked hq
    rw [hqb, hfree] at this
    cases this
  · rw [hrefs, if_pos rfl]
  · show loadOf (insert b (a.alloc b).logs) _ ≤ _
    rw [Store.logs_alloc hs, Finset.insert_idem, hrefs]
    split
    · rename_i hpi
      have hind : a.ref ip NDIRECT = 0 := by
        rw [hpi]
        exact (ref_direct hp).trans h0
      unfold Store.load
      rw [hind]
      exact Nat.le_succ_of_le (loadOf_new hb0)
    · exact loadOf_insert_le

theorem Mapped.refl (r : Ready a) (h : FileInv ip a)
    (hfull : a.ref ip p = 0 → ∀ b, b < a.mem.sb.size → used a.mem.sb a.blk b = true) :
    Mapped ip p (a.ref ip p) a a := ⟨Grown.refl r h, rfl, loadOf_insert_le, hfull⟩

/-- The store after block `b` was given out and entered in the indirect block. -/
def Store.setEntry (a : Store) (ip k b : Nat) : Store :=
  (a.alloc b).write (a.ref ip NDIRECT)
    (((a.alloc b).blk (a.ref ip NDIRECT)).putLE (4 * k) 4 b)

theorem setEntry_blk_ne {c : Nat} (hc : datastart a.mem.sb ≤ c) (hb : c ≠ b)
    (hs : b < a.mem.sb.size) (hi : c ≠ a.ref ip NDIRECT) : (a.setEntry ip k b).blk c = a.blk c := by
  unfold Store.setEntry
  rw [Store.write_blk_ne hi, alloc_blk_ne hb (ne_bblock hs hc)]

theorem FileInv.ref_ne_free (h : FileInv ip a) (h0 : a.ref ip p ≠ 0)
    (hfree : used a.mem.sb a.blk b = false) : a.ref ip p ≠ b := by
  intro hpb
  have := h.marked h0
  rw [hpb, hfree] at this
  cases this

theorem ref_setEntry (h : FileInv ip a) (h0 : a.ref ip NDIRECT ≠ 0) (hk : k < NINDIRECT)
    (hs : b < a.mem.sb.size) (hw : a.mem.sb.size < 2 ^ 32)
    (hfree : used a.mem.sb a.blk b = false) (q : Nat) :
    ref (a.setEntry ip k b).blk (a.copy ip) q = if q = NDIRECT + 1 + k then b else a.ref ip q := by
  have hind : (a.copy ip).addrs NDIRECT ≠ 0 := by
    exact h0
  by_cases hq : q ≤ NDIRECT
  · rw [if_neg (by omega), ref_direct hq]
    exact (ref_direct hq).symm
  obtain ⟨j, rfl⟩ := Nat.exists_eq_add_of_lt (Nat.lt_of_not_le hq)
  have hj : NDIRECT + j + 1 = NDIRECT + 1 + j := by omega
  rw [hj]
  rcases Nat.lt_or_ge j NINDIRECT with hlt | hge
  · unfold Store.ref
    have hblk : (a.setEntry ip k b).blk ((a.copy ip).addrs NDIRECT) =
        (a.blk ((a.copy ip).addrs NDIRECT)).putLE (4 * k) 4 b := by
      unfold Store.setEntry
      rw [Store.ref_ind, Store.write_blk, alloc_blk_ne]
      · exact h.ref_ne_free h0 hfree
      · exact ne_bblock hs (h.range h0).1
    rw [ref_indirect hind hlt, ref_indirect hind hlt, hblk, getUint_putLE _ hk (by omega)]
    split
    · rename_i hjk
      rw [if_pos (by rw [hjk])]
    · rw [if_neg (by omega)]
  · rw [ref_beyond (by omega), if_neg (by omega)]
    exact (ref_beyond (by omega)).symm

theorem Mapped.setEntry (r : Ready a) (h : FileInv ip a) (h0 : a.ref ip NDIRECT ≠ 0)
    (hk : k < NINDIRECT) (hz : a.ref ip (NDIRECT + 1 + k) = 0) (hb : datastart a.mem.sb ≤ b)
    (hs : b < a.mem.sb.size) (hfree : used a.mem.sb a.blk b = false) :
    Mapped ip (NDIRECT + 1 + k) b a (a.setEntry ip k b) := by
  have horder := r.geo.order
  have hind := h.range h0
  have href := ref_setEntry h h0 hk hs r.geo.width hfree
  have hmeta : ∀ c, c < datastart a.mem.sb → (a.setEntry ip k b).blk c = (a.alloc b).blk c := by
    intro c hc
    exact Store.write_blk_ne (by omega)
  have hsound := h.sound.attach r.geo h.lt h.type hs hfree href
    (fun c hc => by
      rw [used_congr (hmeta _ (bblock_range hc).2)]
      exact used_alloc hb hc)
    (fun c hc => by
      rw [hmeta c (by omega)]
      have := bblock_range hs
      exact alloc_blk_ne (by omega) (by omega))
    (fun c hc hcb hci => setEntry_blk_ne hc hcb hs (by rw [Store.ref_ind]; exact hci))
  have hinv : FileInv ip (a.setEntry ip k b) := h.next rfl rfl h.type h.fits hsound.1 hsound.2
  refine ⟨⟨⟨r.write.write.write, hinv, rfl, ?_, ?_, hsound.1, ?_⟩, ?_⟩, ?_, ?_, ?_⟩
  · intro c hc
    exact mem_absorb.mpr (Or.inl (mem_absorb.mpr (Or.inl (mem_absorb.mpr (Or.inl hc)))))
  · exact (Grown.refl r h).mem
  · intro q hq
    refine (href q).trans (if_neg ?_)
    intro hqk
    rw [hqk] at hq
    exact hq hz
  · intro q hq hqi
    refine setEntry_blk_ne (h.range hq).1 (h.ref_ne_free hq hfree) hs ?_
    intro heq
    exact hqi (h.inj heq hq)
  · exact (href _).trans (if_pos rfl)
  · -- the indirect block is counted, and `b` was logged when it was zeroed
    have hlogs : (a.setEntry ip k b).logs = insert (a.ref ip NDIRECT) (insert b a.logs) := by
      unfold Store.setEntry
      rw [Store.logs_write, Store.logs_alloc hs]
    show loadOf (insert b (a.setEntry ip k b).logs) (a.ref ip NDIRECT) ≤ _
    rw [hlogs, Finset.insert_comm, Finset.insert_idem, loadOf_insert_ind h0]
    exact loadOf_insert_le
  · intro hb0
    omega

end bmap

end Xv6.Fs
