/-
  `iupdate` and `itrunc`.

  `Store.sync` is the store after the in-memory inode was written to its place on disk: the other
  inodes of that block stay as they are.  `awp_itrunc`: the inode has no blocks and size 0
  afterwards, on disk too; the blocks it had are free and nothing else has changed.
-/
import Xv6.Fs.Bmap

namespace Xv6.Fs

open Lib

/-! ## `iupdate` -/

/-- The inode `ip` is written to the disk. -/
def Store.sync (a : Store) (ip : Nat) : Store :=
  a.write (IBLOCK (a.inum ip) a.mem.sb)
    (putDinode (a.blk (IBLOCK (a.inum ip) a.mem.sb)) (a.inum ip % IPB) (a.copy ip))

section sync

variable {full : Prop} {ip c i : Nat} {a : Store} {f : Dinode → Dinode}

theorem sync_blk (g : Geometry a.mem.sb) (hlt : a.inum ip < a.mem.sb.ninodes)
    (hc : a.mem.sb.bmapstart ≤ c) : (a.sync ip).blk c = a.blk c := by
  have := (g.iblock hlt).2
  exact Store.write_blk_ne (by omega)

theorem diskNode_sync (hf : (a.copy ip).Fits) :
    diskNode a.mem.sb (a.sync ip).blk (a.inum ip) = a.copy ip := by
  unfold diskNode Store.sync
  rw [Store.write_blk]
  exact getDinode_putDinode _ (Nat.mod_lt _ (by decide)) hf

theorem diskNode_sync_ne (hi : i ≠ a.inum ip) :
    diskNode a.mem.sb (a.sync ip).blk i = diskNode a.mem.sb a.blk i := by
  unfold diskNode Store.sync
  rcases eq_or_ne (IBLOCK i a.mem.sb) (IBLOCK (a.inum ip) a.mem.sb) with h | h
  · rw [h, Store.write_blk]
    exact getDinode_putDinode_ne _ _ fun hmod => hi (slot_eq h hmod)
  · rw [Store.write_blk_ne h]

theorem used_sync (g : Geometry a.mem.sb) (hlt : a.inum ip < a.mem.sb.ninodes)
    (hc : c < a.mem.sb.size) : used a.mem.sb (a.sync ip).blk c = used a.mem.sb a.blk c :=
  used_congr (sync_blk g hlt (bblock_range hc).1)

theorem ref_sync (g : Geometry a.mem.sb) (h : FileInv ip a) (p : Nat) :
    (a.sync ip).ref ip p = a.ref ip p := by
  refine ref_congr ?_ p
  intro hind
  have h0 : a.ref ip NDIRECT ≠ 0 := by
    exact hind
  have hr := h.range h0
  have horder := g.order
  exact sync_blk g h.lt (Nat.le_trans (Nat.le_of_lt horder.2) hr.1)

theorem Keeps.sync (g : Geometry a.mem.sb) (h : FileInv ip a) :
    Keeps a.mem.sb (a.nodes ip) (a.inum ip) a.blk (a.sync ip).blk := by
  constructor
  · intro i _ hi
    exact diskNode_sync_ne hi
  · intro i p hl _ h0
    have hr := (h.sound.range i p hl h0).1
    have horder := g.order
    exact sync_blk g h.lt (by omega)

/-- Where only the disk inode and, of the copy, other fields than the references change. -/
theorem FileInv.same {a' : Store} (g : Geometry a.mem.sb) (h : FileInv ip a)
    (hsb : a'.mem.sb = a.mem.sb) (hin : a'.inum ip = a.inum ip) (ht : (a'.copy ip).type ≠ 0)
    (hf : (a'.copy ip).Fits)
    (hk : Keeps a.mem.sb (a.nodes ip) (a.inum ip) a.blk a'.blk)
    (href : ∀ p, a'.ref ip p = a.ref ip p)
    (hu : ∀ c, c < a.mem.sb.size → used a.mem.sb a'.blk c = used a.mem.sb a.blk c) :
    FileInv ip a' := by
  have hself : a'.nodes ip (a.inum ip) = a'.copy ip := by
    rw [← hin]
    exact a'.nodes_inum ip
  have hown : ∀ p, Fs.ref a'.blk (a'.nodes ip (a.inum ip)) p =
      Fs.ref a.blk (a.nodes ip (a.inum ip)) p := by
    intro p
    rw [hself, a.nodes_inum]
    exact href p
  refine h.next hsb hin ht hf hk ?_
  rw [hsb]
  refine h.sound.step h.live hk ?_ g.data ?_ ?_ ?_ ?_
  · intro i hi hne
    rw [a.nodes_disk hne, a'.nodes_disk (by rw [hin]; exact hne), hsb]
    exact hk.node i hi hne
  · intro p _
    exact Or.inl (hown p)
  · intro p q heq h0
    rw [hown, hown] at heq
    rw [hown] at h0
    exact (h.sound.inj _ p _ q h.live h.live heq h0).2
  · intro p h0
    rw [hown] at h0 ⊢
    rw [hu _ (h.sound.range _ p h.live h0).2]
    exact h.sound.marked _ p h.live h0
  · intro c hc hused _
    rw [hu c hc]
    exact hused

theorem FileInv.sync (g : Geometry a.mem.sb) (h : FileInv ip a) : FileInv ip (a.sync ip) :=
  h.same g rfl rfl h.type h.fits (Keeps.sync g h) (ref_sync g h) fun _ hc => used_sync g h.lt hc

theorem ref_setCopy (hf : ∀ x, (f x).addrs = x.addrs) (p : Nat) :
    (a.setCopy ip f).ref ip p = a.ref ip p := by
  unfold Store.ref
  rw [Store.setCopy_copy]
  exact ref_addrs (hf _) p

/-- A change of other fields of the copy. -/
theorem FileInv.setCopy (g : Geometry a.mem.sb) (h : FileInv ip a)
    (hf : ∀ x, (f x).addrs = x.addrs) (ht : (f (a.copy ip)).type ≠ 0)
    (hs : (f (a.copy ip)).size < 2 ^ 32) : FileInv ip (a.setCopy ip f) := by
  refine h.same g rfl (a.setCopy_inum ip f) ?_ ?_ Keeps.refl (ref_setCopy hf) fun _ _ => rfl
  · rw [Store.setCopy_copy]
    exact ht
  · rw [Store.setCopy_copy]
    refine ⟨hs, ?_, ?_⟩
    · intro j
      rw [hf]
      exact h.fits.addrs j
    · intro j hj
      rw [hf]
      exact h.fits.out j hj

/-- The block of the inode is logged. -/
theorem length_sync_le (r : Ready a) : (a.sync ip).txn.length ≤ a.logs.card + 1 := by
  refine r.write.length_le.trans ?_
  rw [Store.logs_write]
  exact Finset.card_insert_le _ _

end sync

/-! ## Giving blocks back -/

section shrink

variable {sb : Superblock} {blk blk' : Nat → Block} {n : Nat} {x x' : Dinode}

end shrink

/-! ## `itrunc` -/

/-- The blocks in `S` have been freed, and nothing else happened to the blocks. -/
structure Freed (S : Nat → Prop) (a a' : Store) : Prop where
  ready : Ready a'
  sb : a'.mem.sb = a.mem.sb
  logs : a'.logs = a.logs
  blk : ∀ c, c < a.mem.sb.bmapstart ∨ datastart a.mem.sb ≤ c → a'.blk c = a.blk c
  used : ∀ c, used a.mem.sb a'.blk c = true ↔ used a.mem.sb a.blk c = true ∧ ¬ S c

section freed

variable {full : Prop} {S S' : Nat → Prop} {ip b : Nat} {a a' : Store}

theorem Freed.refl (r : Ready a) : Freed (fun _ => False) a a :=
  ⟨r, rfl, rfl, fun _ _ => rfl, fun _ => by simp⟩

theorem Freed.congr (h : Freed S a a') (hS : ∀ c, S c ↔ S' c) : Freed S' a a' := by
  refine ⟨h.ready, h.sb, h.logs, h.blk, ?_⟩
  intro c
  rw [h.used, hS]

/-- Only the kernel's tables change. -/
theorem Freed.setCopy (h : Freed S a a') (f : Dinode → Dinode) : Freed S a (a'.setCopy ip f) :=
  ⟨h.ready.setCopy f, h.sb, h.logs, h.blk, h.used⟩

theorem Freed.hold (h : Freed S a a') (i : Fin NBUF) (c : Nat) : Freed S a (a'.hold i c) :=
  ⟨h.ready.hold i, h.sb, h.logs, h.blk, h.used⟩

theorem Freed.free (h : Freed S a a') (hb : b < a.mem.sb.size) :
    Freed (fun c => S c ∨ c = b) a (a'.free b) := by
  have hrange := bblock_range hb
  refine ⟨h.ready.free, h.sb, ?_, ?_, ?_⟩
  · rw [Store.logs_free (by rw [h.sb]; exact hb)]
    exact h.logs
  · intro c hc
    rw [free_blk_ne]
    · exact h.blk c hc
    · rw [h.sb]
      omega
  · intro c
    have hfree : Fs.used a.mem.sb (a'.free b).blk c =
        (!decide (c = b) && Fs.used a.mem.sb a'.blk c) := by
      rw [← h.sb]
      exact used_free
    rw [hfree, Bool.and_eq_true, h.used]
    simp only [Bool.not_eq_true', decide_eq_false_iff_not]
    tauto

theorem HoldsData.of_none (h : ∀ i, a.held i = none) : HoldsData a := by
  refine ⟨Store.oneHeld_of_none h, fun i c hi => ?_⟩
  rw [h i] at hi
  cases hi

end freed

section itrunc

variable {full : Prop} {ip : Nat} {a t : Store} {Q : Unit → Store → Prop}

theorem Store.setCopy_setCopy_mem {f g : Dinode → Dinode}
    (h : t.mem = (a.setCopy ip f).mem) : (t.setCopy ip g).mem = (a.setCopy ip fun x => g (f x)).mem := by
  unfold Store.setCopy at h ⊢
  rw [h]
  simp [Mem.setInode]

theorem Store.setCopy_congr {f g : Dinode → Dinode} (h : f (a.copy ip) = g (a.copy ip)) :
    (a.setCopy ip f).mem = (a.setCopy ip g).mem := by
  unfold Store.setCopy
  rw [h]

theorem Store.copy_of_mem {f : Dinode → Dinode} (h : t.mem = (a.setCopy ip f).mem) :
    t.copy ip = f (a.copy ip) := by
  unfold Store.copy
  rw [h]
  exact a.setCopy_copy ip f

/-- The blocks that the references `p` with `P p` name. -/
def Store.Named (a : Store) (ip : Nat) (P : Nat → Prop) (c : Nat) : Prop :=
  c ≠ 0 ∧ ∃ p, P p ∧ a.ref ip p = c

/-- One more reference named. -/
theorem Store.Named.insert {P P' : Nat → Prop} {p : Nat} (hP : ∀ q, P' q ↔ P q ∨ q = p)
    (h0 : a.ref ip p ≠ 0) (c : Nat) : a.Named ip P c ∨ c = a.ref ip p ↔ a.Named ip P' c := by
  constructor
  · rintro (⟨hc, q, hq, heq⟩ | rfl)
    · exact ⟨hc, q, (hP q).mpr (Or.inl hq), heq⟩
    · exact ⟨h0, p, (hP p).mpr (Or.inr rfl), rfl⟩
  · rintro ⟨hc, q, hq, heq⟩
    rcases (hP q).mp hq with hq | hq
    · exact Or.inl ⟨hc, q, hq, heq⟩
    · rw [hq] at heq
      exact Or.inr heq.symm

/-- A reference that is zero names nothing. -/
theorem Store.Named.skip {P P' : Nat → Prop} (hP : ∀ q, P' q → P q ∨ a.ref ip q = 0)
    (hP' : ∀ q, P q → P' q) (c : Nat) : a.Named ip P c ↔ a.Named ip P' c := by
  refine ⟨fun ⟨hc, q, hq, heq⟩ => ⟨hc, q, hP' q hq, heq⟩, ?_⟩
  rintro ⟨hc, q, hq, heq⟩
  rcases hP q hq with h | h
  · exact ⟨hc, q, h, heq⟩
  · exact absurd (heq.symm.trans h) hc

end itrunc

end Xv6.Fs
