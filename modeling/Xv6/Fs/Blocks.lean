/-
  Which block belongs to which inode.

  `ref blk x p` is the `p`-th block reference of the inode `x`: the entries of `addrs`, the one of
  the indirect block among them, then those of the indirect block.  `Sound` says of the disk that
  the references of all inodes together name different blocks of the data area, each marked in the
  bitmap, as are all blocks before the data area.  `Whole` says of one inode that no file block
  below its size is missing.

  `Sound.step` is the one place where the invariant is carried over a change: to one inode's
  references, with blocks that were its own or free.  `byteAt` is a byte of a file.
-/
import Xv6.Fs.Codec

namespace Xv6.Fs

open Lib

/-! ## Layout -/

/-- The first block of the data area. -/
def datastart (sb : Superblock) : Nat := sb.bmapstart + sb.size / BPB + 1

/-- The areas of the device behind the log, in the order in which `mkfs` lays them out. -/
structure Geometry (sb : Superblock) : Prop where
  inodes : sb.inodestart + sb.ninodes / IPB < sb.bmapstart
  data : datastart sb ≤ sb.size
  width : sb.size < 2 ^ 32

/-- The bit of block `b` in the bitmap. -/
def used (sb : Superblock) (blk : Nat → Block) (b : Nat) : Bool :=
  getBit (blk (BBLOCK b sb)) (b % BPB)

/-- Inode `i` on disk. -/
def diskNode (sb : Superblock) (blk : Nat → Block) (i : Nat) : Dinode :=
  getDinode (blk (IBLOCK i sb)) (i % IPB)

section layout

variable {sb : Superblock} {blk blk' : Nat → Block} {b c i j : Nat}

theorem Geometry.iblock (g : Geometry sb) (h : i < sb.ninodes) :
    sb.inodestart ≤ IBLOCK i sb ∧ IBLOCK i sb < sb.bmapstart := by
  have := g.inodes
  simp only [IBLOCK, IPB] at *
  omega

theorem bblock_range (h : b < sb.size) :
    sb.bmapstart ≤ BBLOCK b sb ∧ BBLOCK b sb < datastart sb := by
  simp only [BBLOCK, datastart, BPB]
  omega

theorem Geometry.order (g : Geometry sb) :
    sb.inodestart < sb.bmapstart ∧ sb.bmapstart < datastart sb := by
  have := g.inodes
  simp only [datastart, IPB, BPB] at *
  omega

/-- The same bit of the same bitmap block. -/
theorem bit_eq (h : BBLOCK b sb = BBLOCK c sb) (hm : b % BPB = c % BPB) : b = c := by
  simp only [BBLOCK, BPB] at h hm
  omega

/-- The same inode of the same block. -/
theorem slot_eq (h : IBLOCK i sb = IBLOCK j sb) (hm : i % IPB = j % IPB) : i = j := by
  simp only [IBLOCK, IPB] at h hm
  omega

theorem used_congr (h : blk' (BBLOCK b sb) = blk (BBLOCK b sb)) :
    used sb blk' b = used sb blk b := by
  unfold used
  rw [h]

theorem diskNode_congr (h : blk' (IBLOCK i sb) = blk (IBLOCK i sb)) :
    diskNode sb blk' i = diskNode sb blk i := by
  unfold diskNode
  rw [h]

end layout

/-! ## References -/

/-- The position of file block `bn` among the references of an inode. -/
def pos (bn : Nat) : Nat := if bn < NDIRECT then bn else bn + 1

/-- The `p`-th reference of an inode, zero if there is none. -/
def ref (blk : Nat → Block) (x : Dinode) (p : Nat) : Nat :=
  if p ≤ NDIRECT then x.addrs p
  else if x.addrs NDIRECT = 0 ∨ NINDIRECT ≤ p - (NDIRECT + 1) then 0
  else getUint (blk (x.addrs NDIRECT)) (p - (NDIRECT + 1))

section refs

variable {blk blk' : Nat → Block} {x y : Dinode} {p bn bm : Nat}

theorem pos_ne : pos bn ≠ NDIRECT := by
  unfold pos
  split <;> omega

theorem pos_inj (h : pos bn = pos bm) : bn = bm := by
  unfold pos at h
  split at h <;> split at h <;> omega

theorem ref_direct (h : p ≤ NDIRECT) : ref blk x p = x.addrs p := if_pos h

theorem ref_none (h : NDIRECT < p) (h0 : x.addrs NDIRECT = 0) : ref blk x p = 0 := by
  unfold ref
  rw [if_neg (by omega), if_pos (Or.inl h0)]

theorem ref_indirect {k : Nat} (h0 : x.addrs NDIRECT ≠ 0) (hk : k < NINDIRECT) :
    ref blk x (NDIRECT + 1 + k) = getUint (blk (x.addrs NDIRECT)) k := by
  unfold ref
  rw [if_neg (by omega), Nat.add_sub_cancel_left, if_neg (by omega)]

theorem ref_beyond (h : NDIRECT + 1 + NINDIRECT ≤ p) : ref blk x p = 0 := by
  unfold ref
  rw [if_neg (by omega), if_pos (Or.inr (by omega))]

/-- The references depend on the indirect block alone. -/
theorem ref_congr (h : x.addrs NDIRECT ≠ 0 → blk' (x.addrs NDIRECT) = blk (x.addrs NDIRECT))
    (p : Nat) : ref blk' x p = ref blk x p := by
  unfold ref
  split
  · rfl
  · split
    · rfl
    · rename_i h0
      rw [h fun h => h0 (Or.inl h)]

theorem ref_addrs (h : y.addrs = x.addrs) (p : Nat) : ref blk y p = ref blk x p := by
  unfold ref
  rw [h]

end refs

/-! ## Ownership -/

/-- Is inode `i` in use? -/
def Live (sb : Superblock) (N : Nat → Dinode) (i : Nat) : Prop :=
  i < sb.ninodes ∧ (N i).type ≠ 0

/-- Every reference of an inode in use is to a block of its own. -/
structure Sound (sb : Superblock) (blk : Nat → Block) (N : Nat → Dinode) : Prop where
  range : ∀ i p, Live sb N i → ref blk (N i) p ≠ 0 →
    datastart sb ≤ ref blk (N i) p ∧ ref blk (N i) p < sb.size
  marked : ∀ i p, Live sb N i → ref blk (N i) p ≠ 0 → used sb blk (ref blk (N i) p) = true
  inj : ∀ i p j q, Live sb N i → Live sb N j → ref blk (N i) p = ref blk (N j) q →
    ref blk (N i) p ≠ 0 → i = j ∧ p = q
  reserved : ∀ b, b < datastart sb → used sb blk b = true

/-- No file block below the size is missing. -/
structure Whole (blk : Nat → Block) (x : Dinode) : Prop where
  size : x.size ≤ MAXFILE * BSIZE
  holes : ∀ bn, bn * BSIZE < x.size → ref blk x (pos bn) ≠ 0

/-- What a change to inode `n` leaves as it is: the other inodes and their blocks. -/
structure Keeps (sb : Superblock) (N : Nat → Dinode) (n : Nat) (blk blk' : Nat → Block) : Prop where
  node : ∀ i, i < sb.ninodes → i ≠ n → diskNode sb blk' i = diskNode sb blk i
  block : ∀ i p, Live sb N i → i ≠ n → ref blk (N i) p ≠ 0 →
    blk' (ref blk (N i) p) = blk (ref blk (N i) p)

/-- The byte at offset `o` of a file. -/
def byteAt (blk : Nat → Block) (x : Dinode) (o : Nat) : Byte :=
  (blk (ref blk x (pos (o / BSIZE)))).byte (o % BSIZE)

section ownership

variable {sb : Superblock} {blk blk' blk'' : Nat → Block} {N N' : Nat → Dinode} {n i b p : Nat}

theorem Keeps.refl : Keeps sb N n blk blk := ⟨fun _ _ _ => rfl, fun _ _ _ _ _ => rfl⟩

theorem Keeps.ref (h : Keeps sb N n blk blk') (hl : Live sb N i) (hi : i ≠ n) (p : Nat) :
    ref blk' (N i) p = ref blk (N i) p := by
  apply ref_congr
  intro h0
  have hr : Fs.ref blk (N i) NDIRECT = (N i).addrs NDIRECT := ref_direct (le_refl _)
  have := h.block i NDIRECT hl hi (by rw [hr]; exact h0)
  exact this

theorem Keeps.trans (h : Keeps sb N n blk blk') (h' : Keeps sb N' n blk' blk'')
    (hN : ∀ i, i < sb.ninodes → i ≠ n → N' i = N i) : Keeps sb N n blk blk'' := by
  constructor
  · intro i hi hn
    rw [h'.node i hi hn, h.node i hi hn]
  · intro i p hl hn h0
    have hl' : Live sb N' i := by
      refine ⟨hl.1, ?_⟩
      rw [hN i hl.1 hn]
      exact hl.2
    have hr := h.ref hl hn p
    have hb := h'.block i p hl' hn (by rw [hN i hl.1 hn, hr]; exact h0)
    rw [hN i hl.1 hn, hr] at hb
    rw [hb, h.block i p hl hn h0]

/-- The other files have the contents they had. -/
theorem Keeps.byteAt (h : Keeps sb N n blk blk') (hl : Live sb N i) (hi : i ≠ n) {o : Nat}
    (h0 : Fs.ref blk (N i) (pos (o / BSIZE)) ≠ 0) : byteAt blk' (N i) o = byteAt blk (N i) o := by
  unfold Fs.byteAt
  rw [h.ref hl hi, h.block i _ hl hi h0]

theorem Keeps.whole (h : Keeps sb N n blk blk') (hl : Live sb N i) (hi : i ≠ n)
    (hw : Whole blk (N i)) : Whole blk' (N i) := by
  refine ⟨hw.size, ?_⟩
  intro bn hbn
  rw [h.ref hl hi]
  exact hw.holes bn hbn

/-- Only blocks of inode `n`, free blocks and the bitmap change. -/
theorem Sound.keeps (g : Geometry sb) (h : Sound sb blk N) (hn : Live sb N n)
    (hmeta : ∀ c, c < sb.bmapstart → blk' c = blk c)
    (hdata : ∀ c, datastart sb ≤ c → used sb blk c = true → (∀ p, ref blk (N n) p ≠ c) →
      blk' c = blk c) : Keeps sb N n blk blk' := by
  constructor
  · intro i hi _
    exact diskNode_congr (hmeta _ (g.iblock hi).2)
  · intro i p hl hi h0
    refine hdata _ (h.range i p hl h0).1 (h.marked i p hl h0) ?_
    intro q hq
    exact hi (h.inj i p n q hl hn hq.symm h0).1

/-- The invariant after a change to inode `n`. Each reference it has is one it had or a block that
    was free; and what it does not give up stays marked. -/
theorem Sound.step (h : Sound sb blk N) (hn : Live sb N n) (hk : Keeps sb N n blk blk')
    (hN : ∀ i, i < sb.ninodes → i ≠ n → N' i = N i)
    (hdata : datastart sb ≤ sb.size)
    (hown : ∀ p, ref blk' (N' n) p ≠ 0 → ref blk' (N' n) p = ref blk (N n) p ∨
      used sb blk (ref blk' (N' n) p) = false ∧ ref blk' (N' n) p < sb.size)
    (hinj : ∀ p q, ref blk' (N' n) p = ref blk' (N' n) q → ref blk' (N' n) p ≠ 0 → p = q)
    (hmark : ∀ p, ref blk' (N' n) p ≠ 0 → used sb blk' (ref blk' (N' n) p) = true)
    (hkeep : ∀ c, c < sb.size → used sb blk c = true → (∀ p, ref blk (N n) p = c → c = 0) →
      used sb blk' c = true) : Sound sb blk' N' := by
  have hlive : ∀ i, i ≠ n → Live sb N' i → Live sb N i := by
    intro i hi hl
    refine ⟨hl.1, ?_⟩
    rw [← hN i hl.1 hi]
    exact hl.2
  have hother : ∀ i p, i ≠ n → Live sb N' i → ref blk' (N' i) p = ref blk (N i) p := by
    intro i p hi hl
    rw [hN i hl.1 hi, hk.ref (hlive i hi hl) hi]
  -- a reference of another inode is not one of `n`, before or after
  have hcross : ∀ i p q, i ≠ n → Live sb N' i → ref blk (N i) p ≠ 0 →
      ref blk (N i) p ≠ ref blk' (N' n) q := by
    intro i p q hi hl h0 heq
    have hm := h.marked i p (hlive i hi hl) h0
    rcases hown q (by rw [← heq]; exact h0) with hq | hq
    · exact hi (h.inj i p n q (hlive i hi hl) hn (heq.trans hq) h0).1
    · rw [heq, hq.1] at hm
      cases hm
  constructor
  · intro i p hl h0
    rcases eq_or_ne i n with hi | hi
    · rw [hi] at h0 ⊢
      rcases hown p h0 with hp | hp
      · rw [hp] at h0 ⊢
        exact h.range n p hn h0
      · refine ⟨?_, hp.2⟩
        by_contra hlt
        have := h.reserved _ (Nat.lt_of_not_le hlt)
        rw [hp.1] at this
        cases this
    · rw [hother i p hi hl] at h0 ⊢
      exact h.range i p (hlive i hi hl) h0
  · intro i p hl h0
    rcases eq_or_ne i n with hi | hi
    · rw [hi] at h0 ⊢
      exact hmark p h0
    · rw [hother i p hi hl] at h0 ⊢
      have hl' := hlive i hi hl
      refine hkeep _ (h.range i p hl' h0).2 (h.marked i p hl' h0) ?_
      intro q hq
      exact absurd (h.inj i p n q hl' hn hq.symm h0).1 hi
  · intro i p j q hi hj heq h0
    rcases eq_or_ne i n with hin | hin <;> rcases eq_or_ne j n with hjn | hjn
    · rw [hin, hjn] at heq
      rw [hin] at h0
      exact ⟨hin.trans hjn.symm, hinj p q heq h0⟩
    · rw [hin] at heq h0
      rw [hother j q hjn hj] at heq
      exact absurd heq.symm (hcross j q p hjn hj (by rw [← heq]; exact h0))
    · rw [hjn, hother i p hin hi] at heq
      rw [hother i p hin hi] at h0
      exact absurd heq (hcross i p q hin hi h0)
    · rw [hother i p hin hi, hother j q hjn hj] at heq
      rw [hother i p hin hi] at h0
      exact h.inj i p j q (hlive i hin hi) (hlive j hjn hj) heq h0
  · intro c hc
    refine hkeep c (Nat.lt_of_lt_of_le hc hdata) (h.reserved c hc) ?_
    intro p hp
    by_contra h0
    have := (h.range n p hn (by rw [hp]; exact h0)).1
    omega

end ownership

end Xv6.Fs
