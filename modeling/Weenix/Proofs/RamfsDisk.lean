import Weenix.Proofs.RamfsOps

/-! The file system without its vnodes. While a vnode is in core its inode has one link more; the
nodes below leave that link out, so that taking and dropping references changes no node but the
one that is freed. -/

namespace Weenix.Vfs

open Function Option

/-- An inode, with the links that are not its vnode's. -/
@[ext]
structure Node where
  mem : Mem
  size : ℤ
  links : ℤ

namespace Fs

variable {fs : Fs} {p q : VPtr} {n m d : ℕ}

def node (fs : Fs) (n : ℕ) : Option Node :=
  (fs.inodes n).map fun i => ⟨i.mem, i.size, i.linkcount - if (fs.vnodes n).isSome then 1 else 0⟩

theorem node_isSome : (fs.node n).isSome = (fs.inodes n).isSome := by
  simp [node]

theorem node_some {nd : Node} : fs.node n = some nd ↔ ∃ i, fs.inodes n = some i ∧
    nd = ⟨i.mem, i.size, i.linkcount - if (fs.vnodes n).isSome then 1 else 0⟩ := by
  unfold node
  rw [map_eq_some_iff]
  exact exists_congr fun i => and_congr_right fun _ => eq_comm

theorem node_none : fs.node n = none ↔ fs.inodes n = none := by
  simp [node]

theorem refs_pos (hv : fs.Valid) : 0 < fs.refs n ↔ (fs.vnodes n).isSome := by
  unfold refs
  split
  · next v h => simp [h, (hv.vnode h).1]
  · next h => simp [h]

theorem Points.refs_pos (hv : fs.Valid) (hp : fs.Points p) : 0 < fs.refs p.vno := by
  obtain ⟨v, h, -⟩ := hp
  rw [Fs.refs_pos hv, h]
  rfl

theorem Valid.live (hv : fs.Valid) (h : 0 < fs.refs n) : ∃ nd, fs.node n = some nd := by
  obtain ⟨v, h⟩ := isSome_iff_exists.1 ((refs_pos hv).1 h)
  obtain ⟨-, -, i, hi, -⟩ := hv.vnode h
  exact ⟨_, node_some.2 ⟨i, hi, rfl⟩⟩

theorem dir_iff {e : ℕ → Dirent} :
    fs.Dir p e ↔ fs.Points p ∧ ∃ nd, fs.node p.vno = some nd ∧ nd.mem = .dir e := by
  constructor
  · rintro ⟨hp, i, hi, he⟩
    exact ⟨hp, _, node_some.2 ⟨i, hi, rfl⟩, he⟩
  rintro ⟨hp, nd, hn, he⟩
  obtain ⟨i, hi, rfl⟩ := node_some.1 hn
  exact ⟨hp, i, hi, he⟩

/-! ### One inode and its vnode -/

def replace (fs : Fs) (n : ℕ) (i : Option Inode) (v : Option Vnode) (allocs : ℕ) : Fs :=
  ⟨update fs.inodes n i, update fs.vnodes n v, allocs⟩

section Replace

variable {i : Option Inode} {v : Option Vnode} {allocs : ℕ}

theorem setVnode_eq : fs.setVnode n v = fs.replace n (fs.inodes n) v fs.allocs := by
  simp [setVnode, replace]

theorem setInode_eq : fs.setInode n i = fs.replace n i (fs.vnodes n) fs.allocs := by
  simp [setInode, replace]

theorem replace_node : (fs.replace n i v allocs).node =
    update fs.node n (i.map fun j => ⟨j.mem, j.size, j.linkcount - if v.isSome then 1 else 0⟩) := by
  funext m
  by_cases hm : m = n
  · subst hm
    simp [node, replace]
  · simp [node, replace, hm]

theorem replace_refs : (fs.replace n i v allocs).refs = update fs.refs n (v.elim 0 Vnode.refcount) := by
  funext m
  by_cases hm : m = n
  · subst hm
    cases v <;> simp [refs, replace]
  · simp [refs, replace, hm]

theorem replace_points : (fs.replace n i v allocs).Points p ↔
    if p.vno = n then ∃ w, v = some w ∧ w.id = p.id else fs.Points p := by
  split_ifs with hm
  · simp [Points, replace, hm]
  · simp [Points, replace, hm]

theorem Valid.replace (hv : fs.Valid) (hi : ∀ j, i = some j → j.ino = n ∧ n < maxFiles)
    (hw : ∀ w, v = some w → 0 < w.refcount ∧ w.id < allocs ∧ ∃ j, i = some j ∧ w.mode = j.mem.mode)
    (ha : fs.allocs ≤ allocs) : (fs.replace n i v allocs).Valid := by
  refine ⟨fun {m j} hj => ?_, fun {m w} hw' => ?_⟩
  · by_cases hm : m = n
    · subst hm
      exact hi j (by simpa [Fs.replace] using hj)
    · exact hv.inode (by simpa [Fs.replace, hm] using hj)
  by_cases hm : m = n
  · subst hm
    simpa [Fs.replace] using hw w (by simpa [Fs.replace] using hw')
  · obtain ⟨hr, hid, hj⟩ := hv.vnode (n := m) (v := w) (by simpa [Fs.replace, hm] using hw')
    exact ⟨hr, hid.trans_le ha, by simpa [Fs.replace, hm] using hj⟩

end Replace

/-! ### Taking a reference -/

theorem grab_eq_of_core {v : Vnode} (h : fs.vnodes n = some v) :
    fs.grab n = fs.replace n (fs.inodes n) (some { v with refcount := v.refcount + 1 }) fs.allocs := by
  simp [grab, h, setVnode_eq]

theorem grab_eq_of_not_core {i : Inode} (h : fs.vnodes n = none) (hi : fs.inodes n = some i) : fs.grab n =
    fs.replace n (some { i with linkcount := i.linkcount + 1 }) (some ⟨fs.allocs, 1, i.mem.mode, i.size⟩)
      (fs.allocs + 1) := by
  simp [grab, h, hi, setVnode, setInode, replace]

theorem grab_eq_of_dead (h : fs.vnodes n = none) (hi : fs.inodes n = none) : fs.grab n = fs := by
  simp [grab, h, hi]

theorem grab_node : (fs.grab n).node = fs.node := by
  cases h : fs.vnodes n with
  | some v =>
    rw [grab_eq_of_core h, replace_node, update_eq_self_iff]
    simp [node, h]
  | none =>
    cases hi : fs.inodes n with
    | none => rw [grab_eq_of_dead h hi]
    | some i =>
      rw [grab_eq_of_not_core h hi, replace_node, update_eq_self_iff]
      simp [node, h, hi]

theorem grab_refs (hl : (fs.node n).isSome) : (fs.grab n).refs = update fs.refs n (fs.refs n + 1) := by
  rw [node_isSome] at hl
  obtain ⟨i, hi⟩ := isSome_iff_exists.1 hl
  cases h : fs.vnodes n with
  | some v => simp [grab_eq_of_core h, replace_refs, refs, h]
  | none => simp [grab_eq_of_not_core h hi, replace_refs, refs, h]

theorem Valid.grab (hv : fs.Valid) : (fs.grab n).Valid := by
  cases h : fs.vnodes n with
  | some v =>
    rw [grab_eq_of_core h]
    refine hv.replace (fun j hj => hv.inode hj) (fun w hw => ?_) le_rfl
    obtain rfl := Option.some.inj hw
    exact ⟨Nat.succ_pos _, (hv.vnode h).2⟩
  | none =>
    cases hi : fs.inodes n with
    | none => rwa [grab_eq_of_dead h hi]
    | some i =>
      rw [grab_eq_of_not_core h hi]
      refine hv.replace (fun j hj => ?_) (fun w hw => ?_) (Nat.le_succ _)
      · obtain rfl := Option.some.inj hj
        exact hv.inode (i := i) hi
      · obtain rfl := Option.some.inj hw
        exact ⟨Nat.one_pos, Nat.lt_succ_self _, _, rfl, rfl⟩

theorem Points.grab (hp : fs.Points p) : (fs.grab n).Points p := by
  obtain ⟨v, hw, hid⟩ := id hp
  cases h : fs.vnodes n with
  | some w =>
    rw [grab_eq_of_core h, replace_points]
    split_ifs with hm
    · obtain rfl : w = v := Option.some.inj (h.symm.trans (hm ▸ hw))
      exact ⟨_, rfl, hid⟩
    · exact hp
  | none =>
    cases hi : fs.inodes n with
    | none => rwa [grab_eq_of_dead h hi]
    | some i =>
      rw [grab_eq_of_not_core h hi, replace_points, if_neg]
      · exact hp
      rintro rfl
      rw [h] at hw
      cases hw

theorem ptr_vno : (fs.ptr n).vno = n := by
  unfold ptr
  split <;> rfl

theorem points_ptr (hl : (fs.node n).isSome) : (fs.grab n).Points (fs.ptr n) := by
  rw [node_isSome] at hl
  obtain ⟨i, hi⟩ := isSome_iff_exists.1 hl
  cases h : fs.vnodes n with
  | some v => simp [grab_eq_of_core h, replace_points, ptr, h]
  | none => simp [grab_eq_of_not_core h hi, replace_points, ptr, h]

/-! ### Dropping a reference -/

/-- The last reference to an inode that has no name is going. -/
def Dying (fs : Fs) (n : ℕ) : Prop := fs.refs n = 1 ∧ ∃ nd, fs.node n = some nd ∧ nd.links = 0

theorem release_eq_of_none (h : fs.vnodes n = none) : fs.release n = fs := by
  simp [release, h]

theorem release_eq_of_many {v : Vnode} {i : Inode} (h : fs.vnodes n = some v) (hi : fs.inodes n = some i)
    (hr : 1 < v.refcount) :
    fs.release n = fs.replace n (some i) (some { v with refcount := v.refcount - 1 }) fs.allocs := by
  simp [release, h, hi, hr, setVnode_eq]

theorem release_eq_of_one {v : Vnode} {i : Inode} (h : fs.vnodes n = some v) (hi : fs.inodes n = some i)
    (hr : ¬ 1 < v.refcount) : fs.release n = fs.replace n
      (if i.linkcount - 1 = 0 then none else some { i with linkcount := i.linkcount - 1 }) none fs.allocs := by
  simp [release, h, hi, hr, setVnode, setInode, replace]

theorem release_node_of_not (hv : fs.Valid) (hp : 0 < fs.refs n) (hd : ¬ fs.Dying n) :
    (fs.release n).node = fs.node := by
  obtain ⟨v, h⟩ := isSome_iff_exists.1 ((refs_pos hv).1 hp)
  obtain ⟨hr, -, i, hi, -⟩ := hv.vnode h
  by_cases hone : 1 < v.refcount
  · rw [release_eq_of_many h hi hone, replace_node, update_eq_self_iff]
    simp [node, h, hi]
  have hl : i.linkcount - 1 ≠ 0 := fun hl =>
    hd ⟨by simp [refs, h]; omega, _, node_some.2 ⟨i, hi, rfl⟩, by simpa [h] using hl⟩
  rw [release_eq_of_one h hi hone, replace_node, update_eq_self_iff, if_neg hl]
  simp [node, h, hi]

theorem release_node_of_dying (hd : fs.Dying n) : (fs.release n).node = update fs.node n none := by
  obtain ⟨hr, nd, hnd, hl⟩ := hd
  obtain ⟨i, hi, rfl⟩ := node_some.1 hnd
  cases h : fs.vnodes n with
  | none => simp [refs, h] at hr
  | some v =>
    have hone : v.refcount = 1 := by simpa [refs, h] using hr
    have hl' : i.linkcount - 1 = 0 := by simpa [h] using hl
    rw [release_eq_of_one h hi (by omega), replace_node, if_pos hl']
    rfl

theorem release_refs (hv : fs.Valid) (hp : 0 < fs.refs n) :
    (fs.release n).refs = update fs.refs n (fs.refs n - 1) := by
  obtain ⟨v, h⟩ := isSome_iff_exists.1 ((refs_pos hv).1 hp)
  obtain ⟨hr, -, i, hi, -⟩ := hv.vnode h
  have hrefs : fs.refs n = v.refcount := by simp [refs, h]
  by_cases hone : 1 < v.refcount
  · rw [release_eq_of_many h hi hone, replace_refs, hrefs]
    rfl
  · rw [release_eq_of_one h hi hone, replace_refs, hrefs, Nat.sub_eq_zero_of_le (by omega)]
    rfl

theorem Valid.release (hv : fs.Valid) : (fs.release n).Valid := by
  cases h : fs.vnodes n with
  | none => rwa [release_eq_of_none h]
  | some v =>
    obtain ⟨hr, hid, i, hi, hmode⟩ := hv.vnode h
    by_cases hone : 1 < v.refcount
    · rw [release_eq_of_many h hi hone]
      refine hv.replace (fun j hj => hv.inode (hi.trans hj)) (fun w hw => ?_) le_rfl
      obtain rfl := Option.some.inj hw
      exact ⟨Nat.sub_pos_of_lt hone, hid, i, rfl, hmode⟩
    rw [release_eq_of_one h hi hone]
    refine hv.replace (fun j hj => ?_) (fun w hw => by cases hw) le_rfl
    split_ifs at hj
    obtain rfl := Option.some.inj hj
    exact hv.inode (i := i) hi

theorem points_release (hv : fs.Valid) :
    (fs.release n).Points p ↔ fs.Points p ∧ (p.vno = n → 1 < fs.refs n) := by
  cases h : fs.vnodes n with
  | none =>
    rw [release_eq_of_none h]
    refine ⟨fun hp => ⟨hp, fun hn => ?_⟩, And.left⟩
    obtain ⟨v, hv', -⟩ := hp
    rw [hn, h] at hv'
    cases hv'
  | some v =>
    obtain ⟨hr, hid, i, hi, hmode⟩ := hv.vnode h
    by_cases hone : 1 < v.refcount
    · rw [release_eq_of_many h hi hone, replace_points]
      split_ifs with hm
      · simp [Points, hm, h, refs, hone]
      · simp [hm]
    rw [release_eq_of_one h hi hone, replace_points]
    split_ifs with hm
    · simp [hm, refs, h, hone]
    · simp [hm]

/-! ### Changing an inode -/

theorem Valid.setInode (hv : fs.Valid) {i i' : Inode} (hi : fs.inodes n = some i) (hino : i'.ino = i.ino)
    (hmode : i'.mem.mode = i.mem.mode) : (fs.setInode n (some i')).Valid := by
  rw [setInode_eq]
  refine hv.replace (fun j hj => ?_) (fun w hw => ?_) le_rfl
  · obtain rfl := Option.some.inj hj
    rw [hino]
    exact hv.inode hi
  obtain ⟨hr, hid, j, hj, hw'⟩ := hv.vnode hw
  obtain rfl : i = j := Option.some.inj (hi.symm.trans hj)
  exact ⟨hr, hid, i', rfl, hw'.trans hmode.symm⟩

theorem setInode_node {i : Inode} : (fs.setInode n (some i)).node = update fs.node n
    (some ⟨i.mem, i.size, i.linkcount - if (fs.vnodes n).isSome then 1 else 0⟩) := by
  rw [setInode_eq, replace_node]
  rfl

section
variable {nd : Node} (hv : fs.Valid) (hd : fs.node d = some nd)
include hv hd

/-- The transformations of directories and link counts change one node. -/
theorem enter_spec {e : ℕ → Dirent} (he : nd.mem = .dir e)
    (i ino : ℕ) (name : CStr) : (fs.enter d i ino name).Valid ∧ (fs.enter d i ino name).vnodes = fs.vnodes ∧
      (fs.enter d i ino name).node = update fs.node d (some { nd with
        mem := .dir (update e i ⟨ino, name.take (nameLen - 1)⟩), size := nd.size + direntSize }) := by
  obtain ⟨j, hj, rfl⟩ := node_some.1 hd
  have heq : fs.enter d i ino name = fs.setInode d (some { j with
      mem := .dir (update e i ⟨ino, name.take (nameLen - 1)⟩), size := j.size + direntSize }) := by
    simp only at he
    simp [enter, hj, he]
  rw [heq]
  refine ⟨hv.setInode hj rfl ?_, rfl, setInode_node⟩
  simp only at he
  rw [he]
  rfl

theorem leave_spec {e : ℕ → Dirent} (he : nd.mem = .dir e)
    (i : ℕ) : (fs.leave d i).Valid ∧ (fs.leave d i).vnodes = fs.vnodes ∧
      (fs.leave d i).node = update fs.node d (some { nd with
        mem := .dir (update e i ⟨(e i).ino, []⟩), size := nd.size - direntSize }) := by
  obtain ⟨j, hj, rfl⟩ := node_some.1 hd
  have heq : fs.leave d i = fs.setInode d (some { j with
      mem := .dir (update e i ⟨(e i).ino, []⟩), size := j.size - direntSize }) := by
    simp only at he
    simp [leave, hj, he]
  rw [heq]
  refine ⟨hv.setInode hj rfl ?_, rfl, setInode_node⟩
  simp only at he
  rw [he]
  rfl

theorem relink_spec (k : ℤ) : (fs.relink d k).Valid ∧ (fs.relink d k).vnodes = fs.vnodes ∧
      (fs.relink d k).node = update fs.node d (some { nd with links := nd.links + k }) := by
  obtain ⟨j, hj, rfl⟩ := node_some.1 hd
  have heq : fs.relink d k = fs.setInode d (some { j with linkcount := j.linkcount + k }) := by
    simp [relink, hj]
  rw [heq]
  refine ⟨hv.setInode hj rfl rfl, rfl, ?_⟩
  rw [setInode_node]
  congr 3
  ring

end

theorem freeInode_some (h : fs.freeInode = some n) : n < maxFiles ∧ fs.inodes n = none := by
  have hmem := List.mem_of_find?_eq_some h
  have hnone := List.find?_some h
  exact ⟨List.mem_range.1 hmem, by simpa using hnone⟩

def alloc (fs : Fs) (n : ℕ) (mem : Mem) : Fs := fs.setInode n (some ⟨0, n, mem, 1⟩)

theorem alloc_spec (hv : fs.Valid) (h : fs.freeInode = some n) (mem : Mem) :
    (fs.alloc n mem).Valid ∧ (fs.alloc n mem).vnodes = fs.vnodes ∧ fs.vnodes n = none ∧
      (fs.alloc n mem).node = update fs.node n (some ⟨mem, 0, 1⟩) := by
  obtain ⟨hn, hi⟩ := freeInode_some h
  have hcore : fs.vnodes n = none := by
    by_contra hc
    obtain ⟨v, hw⟩ := ne_none_iff_exists'.1 hc
    obtain ⟨-, -, i, hi', -⟩ := hv.vnode hw
    rw [hi] at hi'
    cases hi'
  refine ⟨?_, rfl, hcore, ?_⟩
  · rw [alloc, setInode_eq]
    refine hv.replace (fun j hj => ?_) (fun w hw => by rw [hcore] at hw; cases hw) le_rfl
    obtain rfl := Option.some.inj hj
    exact ⟨rfl, hn⟩
  · rw [alloc, setInode_node]
    simp [hcore]

end Fs

end Weenix.Vfs
