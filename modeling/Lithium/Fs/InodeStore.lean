/-
# Storing and loading inodes

`inode_update` copies the fields of an inode in memory to a slot of its block, and `inode_lock`
copies them back into whatever entry of the cache `inode_get` has picked.  Block and slot are the
quotient and the remainder of the inode number; a `struct dinode` fills its slot, and no other.
-/
import Lithium.Fs.InodeLock

namespace Lithium

/-! ## 1. The bytes of a slot -/

/-- The first assignments of `setDinode` leave the bytes of the other slots alone. -/
theorem setDinode_part_byte (b : Block) {k : Nat} (d : Dinode) {i : Fin bsize}
    (hi : i.val / 64 ≠ k) : ∀ n ≤ 16,
    ((List.range n).foldl (fun b j => b.setWord (16 * k + j) (d.word j)) b) i = b i
  | 0, _ => rfl
  | n + 1, hn => by
    have hword : ¬ i.val / 4 = 16 * k + n := by omega
    rw [List.range_succ, List.foldl_append, List.foldl_cons, List.foldl_nil, Block.setWord,
      if_neg hword]
    exact setDinode_part_byte b d hi n (by omega)

/-- **An assignment to one inode changes no byte of the others.** -/
theorem Block.setDinode_byte (b : Block) {k k' m : Nat} (d : Dinode) (hk : k' ≠ k)
    (hk' : k' < Wal.ipb) (hm : m < 64) :
    (b.setDinode k d).byte (64 * k' + m) = b.byte (64 * k' + m) := by
  have hipb : k' < 8 := hk'
  have hval : (Fin.ofNat bsize (64 * k' + m)).val = 64 * k' + m := by
    simp only [Fin.ofNat, bsize]
    omega
  exact setDinode_part_byte b d (by rw [hval]; omega) 16 (Nat.le_refl _)

namespace Wal

/-- Byte `k` of the inode `inum`, as `block_read` shows its block. -/
def inodeByte (sb : Superblock) (w : World) (inum : BitVec 32) (k : Nat) : BitVec 8 :=
  (w.view (iblock inum sb)).byte (64 * inodeSlot inum + k)

/-! ## 2. Storing and loading -/

/-- Once the inode is in no referenced entry of the cache, `inode_get` and `inode_lock` bring the
fields of `ip` back, whichever entry they use, as long as its block shows what it showed in `s`. -/
def LoadsBack (sb : Superblock) (ip : Inode Pid) (s : FileState) : Prop :=
  ∀ (env : Env) (cache cache' : IcacheState Pid) (i : Fin ninode) (t : FileState),
    (∀ r, env.null r = false) → cache.findEntry ip.dev ip.inum = none →
    cache.inodeGet ip.dev ip.inum = some (cache', i) → (cache.inodes i).lock = none →
    t.world.FreeAt (iblock ip.inum sb) → t.world.CleanAt (iblock ip.inum sb) →
    t.world.view (iblock ip.inum sb) = s.world.view (iblock ip.inum sb) →
    ∃ ip' t', (inodeLock env sb (cache'.inodes i)).run t = .ok ip' t' ∧
      ip'.dev = ip.dev ∧ ip'.inum = ip.inum ∧ ip'.valid = true ∧ ip'.copy = ip.copy

/-- `inode_get` of an inode that is not in the cache. -/
theorem inodeGet_miss {cache cache' : IcacheState Pid} {dev inum : BitVec 32} {i : Fin ninode}
    (hmiss : cache.findEntry dev inum = none) (hget : cache.inodeGet dev inum = some (cache', i)) :
    cache'.inodes i =
      { cache.inodes i with dev := dev, inum := inum, ref := 1, valid := false } := by
  rw [IcacheState.inodeGet, hmiss] at hget
  cases hempty : cache.findEmpty with
  | none => simp [hempty] at hget
  | some k =>
    simp only [hempty, Option.some.injEq, Prod.mk.injEq] at hget
    obtain ⟨rfl, rfl⟩ := hget
    exact IcacheState.modify_self cache k _

/-- A block that shows the fields of `ip` in its slot loads them. -/
theorem loadsBack_of_stored {sb : Superblock} {ip : Inode Pid} {s : FileState}
    (h : (s.world.view (iblock ip.inum sb)).dinode (inodeSlot ip.inum) = ip.copy) :
    LoadsBack sb ip s := by
  intro env cache cache' i t hnull hmiss hget hlock hfree hclean hview
  have hentry := inodeGet_miss hmiss hget
  have hdata := fetched_data env hclean hfree (hnull _)
  rw [hentry]
  generalize hip : ({ cache.inodes i with
    dev := ip.dev, inum := ip.inum, ref := 1, valid := false } : Inode Pid) = ip₀
  have hloads : lockLoads ip₀ = true := by
    rw [← hip]
    rfl
  have hawake : ¬ LockSleeps env sb ip₀ t.world := by
    rw [← hip]
    rintro ⟨-, hheld | ⟨-, -, hlocked⟩⟩
    · exact hheld hlock
    · rw [hfree] at hlocked
      cases hlocked
  have hends : Ends (inodeLock env sb ip₀) t
      (fun ip' _ => ip' = lockedInode env sb ip₀ t.world) fun _ _ => False :=
    inodeLock_ends (fun hsleeps => absurd hsleeps hawake) fun _ => rfl
  obtain ⟨ip', t', hrun, rfl⟩ := hends.returns
  have hcopy : lockedCopy env sb ip₀ t.world = ip.copy := by
    rw [lockedCopy, hloads, hnull, ← hip]
    exact (congrArg (fun d : Block => d.dinode (inodeSlot ip.inum)) (hdata.trans hview)).trans h
  refine ⟨_, t', hrun, ?_, ?_, ?_, hcopy⟩
  · rw [← hip]
    rfl
  · rw [← hip]
    rfl
  · rw [lockedInode, hloads, hnull]
    exact Bool.or_true _

/-- **Storing and loading an inode are inverse, and leave the other inodes alone**: for every
superblock and every inode in memory, after `inode_update` the fields come back from the block once
the inode has left the cache, and no byte of another inode has changed, in the same block or in
another one. -/
theorem inode_store_load (env : Env) (sb : Superblock) (ip : Inode Pid) (s : FileState)
    (hnull : ∀ r, env.null r = false) (hfree : s.world.FreeAt (iblock ip.inum sb))
    (hclean : s.world.CleanAt (iblock ip.inum sb)) :
    ∃ s', (inodeUpdate env sb ip.inum ip.copy).run s = .ok () s' ∧ LoadsBack sb ip s' ∧
      ∀ j, j ≠ ip.inum → ∀ k < 64, inodeByte sb s'.world j k = inodeByte sb s.world j k := by
  have hends : Ends (inodeUpdate env sb ip.inum ip.copy) s
      (fun _ s' => s' = s.changed (iblock ip.inum sb)
        (Block.setDinode (s.world.fetched env (iblock ip.inum sb)).data (inodeSlot ip.inum)
          ip.copy)) fun _ _ => False := by
    refine inodeUpdate_ends sb ip.inum ip.copy (fun h => ?_) (fun _ h => ?_) fun _ _ => rfl
    · rw [hnull] at h
      cases h
    · rw [hfree] at h
      cases h
  obtain ⟨_, s', hrun, rfl⟩ := hends.returns
  rw [fetched_data env hclean hfree (hnull _)] at hrun
  refine ⟨_, hrun, loadsBack_of_stored ?_, fun j hj k hk => ?_⟩
  · rw [changed_view, if_pos rfl, Block.dinode_setDinode _ _ (inodeSlot_lt ip.inum), if_pos rfl]
  · rw [inodeByte, inodeByte, changed_view]
    by_cases hb : iblock j sb = iblock ip.inum sb
    · -- in the same block there is another slot
      have hslot : inodeSlot j ≠ inodeSlot ip.inum := fun hs => hj (inode_place hb hs)
      rw [if_pos hb, hb]
      exact Block.setDinode_byte _ _ hslot (inodeSlot_lt j) hk
    · rw [if_neg hb]

/-- Inode 9 of the small file system, with the buffers as the boot leaves them. -/
theorem inode_store_load_boot :
    ∃ s', (inodeUpdate ⟨1, fun _ => false, fun _ => true⟩ smallFs 9 shortFile).run bootFiles
        = .ok () s' ∧ LoadsBack smallFs ⟨1, 9, 1, some 1, true, shortFile⟩ s' ∧
      ∀ j, j ≠ 9 → ∀ k < 64,
        inodeByte smallFs s'.world j k = inodeByte smallFs bootFiles.world j k :=
  inode_store_load ⟨1, fun _ => false, fun _ => true⟩ smallFs ⟨1, 9, 1, some 1, true, shortFile⟩
    bootFiles (fun _ => rfl) rfl fun _ => rfl

end Wal

end Lithium
