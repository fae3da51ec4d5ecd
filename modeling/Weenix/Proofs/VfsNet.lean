import Weenix.Proofs.VfsBalance

/-! What the calls on paths do to the directories and to the link counts. -/

namespace Weenix.Vfs

open Function Exec Fs Option

/-- The entries of an inode that is a directory, and its links; a vnode in core is not counted. -/
def Fs.look (fs : Fs) (n : ℕ) : Option (Option (ℕ → Dirent) × ℤ) :=
  (fs.node n).map fun nd => (nd.mem.entries, nd.links)

/-- Nothing that is held in `h` is dropped. -/
structure Holds (h g : Fs) : Prop where
  valid : g.Valid
  refs : ∀ k, h.refs k ≤ g.refs k
  points : ∀ {p}, h.Points p → g.Points p

section Looks

variable {h g g' : Fs} {m n i : ℕ} {nd ndm ndn : Node} {e : ℕ → Dirent} {name : CStr}

theorem Holds.refl (hv : h.Valid) : Holds h h := ⟨hv, fun _ => le_refl _, id⟩

theorem Holds.trans (ha : Holds h g) (hb : Holds g g') : Holds h g' :=
  ⟨hb.valid, fun k => (ha.refs k).trans (hb.refs k), fun hp => hb.points (ha.points hp)⟩

theorem Holds.grab (hv : h.Valid) (hl : (h.node n).isSome) : Holds h (h.grab n) := by
  refine ⟨hv.grab, fun k => ?_, fun hp => hp.grab⟩
  rw [grab_refs hl, update_apply]
  split_ifs with hk
  · rw [hk]
    omega
  · exact le_refl _

theorem Over.holds {extra : List ℕ} (ho : Over h g extra) : Holds h g :=
  ⟨ho.valid, fun k => by rw [ho.refs]; omega, ho.points⟩

theorem Fs.Same.holds (hs : h.Same g) (hv : h.Valid) : Holds h g :=
  ⟨hs.valid hv, fun k => by rw [hs.refs], fun hp => hs.points.2 hp⟩

theorem look_eq (hn : g.node = h.node) : g.look = h.look := by
  funext k
  rw [Fs.look, Fs.look, hn]

theorem look_some (hn : h.node n = some nd) : h.look n = some (nd.mem.entries, nd.links) := by
  rw [Fs.look, hn]
  rfl

theorem entries_none {mem : Mem} (hdir : mem.mode ≠ .dir) : mem.entries = none := by
  cases mem with
  | dir e => exact absurd rfl hdir
  | data | chr | blk => rfl

theorem look_dir (hm : h.node m = some nd) (he : nd.mem = .dir e) : h.look m = some (some e, nd.links) := by
  rw [look_some hm, he]
  rfl

theorem look_update {x : Option Node} (hn : g.node = update h.node n x) :
    g.look = update h.look n (x.map fun nd => (nd.mem.entries, nd.links)) := by
  funext k
  rw [Fs.look, hn]
  by_cases hk : k = n
  · subst hk
    rw [update_self, update_self]
  · rw [update_of_ne hk, update_of_ne hk, Fs.look]

/-- No vnode in core, no links: there is no such inode. -/
theorem linked_iff (hv : g.Valid) : g.Linked ↔ ∀ n e l, g.refs n = 0 → g.look n = some (e, l) → l ≠ 0 := by
  have hcore : ∀ n, g.vnodes n = none ↔ g.refs n = 0 := by
    intro n
    have := refs_pos hv (n := n)
    rw [isSome_iff_ne_none] at this
    constructor
    · intro hn
      by_contra h0
      exact this.1 (by omega) hn
    intro h0
    by_contra hn
    have := this.2 hn
    omega
  constructor
  · intro hk n e l h0 hlook
    obtain ⟨nd, hnd, heq⟩ := map_eq_some_iff.1 hlook
    have := hk n nd ((hcore n).2 h0) hnd
    rw [← (Prod.mk.inj heq).2]
    exact this
  · intro hk n nd hn hnd
    exact hk n _ _ ((hcore n).1 hn) (look_some hnd)

theorem node_of_look {en : Option (ℕ → Dirent)} {l : ℤ} (hn : g.look n = some (en, l)) :
    ∃ nd, g.node n = some nd ∧ nd.mem.entries = en ∧ nd.links = l := by
  obtain ⟨nd, hnd, heq⟩ := map_eq_some_iff.1 hn
  exact ⟨nd, hnd, (Prod.mk.inj heq).1, (Prod.mk.inj heq).2⟩

theorem release_look {en : Option (ℕ → Dirent)} {l : ℤ} (hv : g.Valid) (hn : g.look n = some (en, l))
    (hr : 0 < g.refs n) :
    (g.release n).look = update g.look n (if g.refs n = 1 ∧ l = 0 then none else some (en, l)) := by
  obtain ⟨nd, hnd, rfl, rfl⟩ := node_of_look hn
  by_cases hd : g.refs n = 1 ∧ nd.links = 0
  · rw [if_pos hd, look_update (release_node_of_dying ⟨hd.1, nd, hnd, hd.2⟩)]
    rfl
  have hnot : ¬ g.Dying n := by
    rintro ⟨h1, nd', hnd', h0⟩
    rw [hnd] at hnd'
    cases hnd'
    exact hd ⟨h1, h0⟩
  rw [if_neg hd, look_eq (release_node_of_not hv hr hnot), ← hn, update_eq_self]

def setTable (look : ℕ → Option (Option (ℕ → Dirent) × ℤ)) (m : ℕ) (e : ℕ → Dirent) (l : ℤ) :
    ℕ → Option (Option (ℕ → Dirent) × ℤ) := update look m (some (some e, l))

/-- A name is removed, and the inode loses a link. -/
theorem remove_look (hv : g.Valid) (hm : g.node m = some ndm) (he : ndm.mem = .dir e) (hn : g.node n = some ndn)
    (hne : m ≠ n) : (g.remove m i n).look =
      update (setTable g.look m (update e i ⟨(e i).ino, []⟩) ndm.links) n
        (if g.refs n = 0 ∧ ndn.links = 1 then none else some (ndn.mem.entries, ndn.links - 1)) := by
  have hl : (g.node n).isSome := by rw [hn]; rfl
  obtain ⟨hv1, hvn1, hnode1⟩ := leave_spec (hv.grab (n := n)) (grab_node ▸ hm) he i
  rw [grab_node] at hnode1
  have hn1 : ((g.grab n).leave m i).node n = some ndn := by
    rw [hnode1, update_of_ne hne.symm, hn]
  obtain ⟨hv2, hvn2, hnode2⟩ := relink_spec hv1 hn1 (-1)
  have hrefs : (((g.grab n).leave m i).relink n (-1)).refs n = g.refs n + 1 := by
    have hsame : (((g.grab n).leave m i).relink n (-1)).refs n = (g.grab n).refs n := by
      unfold Fs.refs
      rw [hvn2, hvn1]
    rw [hsame, grab_refs hl, update_self]
  have hn2 : (((g.grab n).leave m i).relink n (-1)).node n = some { ndn with links := ndn.links + -1 } := by
    rw [hnode2, update_self]
  rw [Fs.remove, release_look hv2 (look_some hn2) (by omega), look_update hnode2, look_update hnode1, update_idem, hrefs]
  congr 1
  by_cases hd : g.refs n = 0 ∧ ndn.links = 1
  · rw [if_pos hd, if_pos ⟨by omega, by simp only; omega⟩]
  rw [if_neg hd, if_neg (by simp only; omega)]
  rfl

/-- What is left of the inode that a removed name stood for. -/
def leftOf (h : Fs) (n : ℕ) (en : Option (ℕ → Dirent)) (l : ℤ) : Option (Option (ℕ → Dirent) × ℤ) :=
  if h.refs n = 0 ∧ l = 1 then none else some (en, l - 1)

/-- The entry `i` of the directory `m` is removed. -/
structure Removed (h g : Fs) (m : ℕ) (e : ℕ → Dirent) (i : ℕ) : Prop where
  slot : i < maxDirent
  apart : m ≠ (e i).ino
  look : ∃ lm en ln, h.look m = some (some e, lm) ∧ h.look (e i).ino = some (en, ln) ∧
    g.look = update (setTable h.look m (update e i ⟨(e i).ino, []⟩) lm) (e i).ino
      (leftOf h (e i).ino en ln)

/-- The link counts of a state in which a table and one inode have changed. -/
theorem linked_of_look {e' : ℕ → Dirent} {lm : ℤ} {x : Option (Option (ℕ → Dirent) × ℤ)} (hh : Holds h g) (hv : h.Valid)
    (hk : h.Linked) (hm : h.look m = some (some e, lm)) (hlook : g.look = update (setTable h.look m e' lm) n x)
    (hn : ∀ en l, h.refs n = 0 → x = some (en, l) → l ≠ 0) : g.Linked := by
  rw [linked_iff hv] at hk
  rw [linked_iff hh.valid]
  intro k ek lk h0 hlk
  have h0' : h.refs k = 0 := by
    have := hh.refs k
    omega
  rw [hlook] at hlk
  by_cases hkn : k = n
  · subst hkn
    rw [update_self] at hlk
    exact hn ek lk h0' hlk
  rw [update_of_ne hkn, setTable] at hlk
  by_cases hkm : k = m
  · subst hkm
    rw [update_self] at hlk
    cases hlk
    exact hk _ _ _ h0' hm
  · rw [update_of_ne hkm] at hlk
    exact hk _ _ _ h0' hlk

theorem Removed.linked (hr : Removed h g m e i) (hh : Holds h g) (hv : h.Valid) (hk : h.Linked) : g.Linked := by
  obtain ⟨-, -, lm, en, ln, hm, -, hlook⟩ := hr
  refine linked_of_look hh hv hk hm hlook fun en' l h0 hx => ?_
  rw [leftOf] at hx
  split_ifs at hx with hc
  cases hx
  omega

end Looks

/-! ### Removing -/

section Remove

variable {h g g' : Fs} {m n i : ℕ} {nd ndm ndn : Node} {e : ℕ → Dirent} {name : CStr} {cwd : VPtr} {r : ℤ}

/-- A reference that has been taken on top of `h` is dropped. -/
theorem Holds.release (hh : Holds h g) (hv : h.Valid) (hr : h.refs n < g.refs n) : Holds h (g.release n) := by
  refine ⟨hh.valid.release, fun k => ?_, fun {p} hp => (points_release hh.valid).2 ⟨hh.points hp, ?_⟩⟩
  · rw [release_refs hh.valid (by omega), update_apply]
    split_ifs with hk
    · subst hk
      omega
    · exact hh.refs k
  · rintro rfl
    have := hp.refs_pos hv
    omega

theorem neg_code_ne (e : Errno) : -e.code ≠ 0 := by
  have := e.code_pos
  omega

theorem findEntry_lt (hi : findEntry e name = some i) : i < maxDirent ∧ (e i).name = name :=
  SlotMap.slot_some (findEntry_eq e name ▸ hi)

/-- Removing a name on top of `h`, with no reference of its own left. -/
theorem removed_of_remove (ho : Over h g []) (hm : h.node m = some ndm) (he : ndm.mem = .dir e)
    (hi : findEntry e name = some i) (hn : h.node (e i).ino = some ndn) (hne : m ≠ (e i).ino) :
    Holds h (g.remove m i (e i).ino) ∧ Removed h (g.remove m i (e i).ino) m e i := by
  rw [← ho.node] at hm hn
  obtain ⟨hv, hrefs, hpoints⟩ := remove_spec ho.valid hm he i (by rw [hn]; rfl)
  have hlook := remove_look (i := i) ho.valid hm he hn hne
  rw [look_eq ho.node, ho.refs_eq] at hlook
  rw [ho.node] at hm hn
  refine ⟨⟨hv, fun k => by rw [hrefs, ho.refs_eq], fun hp => hpoints (ho.points hp)⟩, (findEntry_lt hi).1, hne, ?_⟩
  exact ⟨ndm.links, ndn.mem.entries, ndn.links, look_dir hm he, look_some hn, hlook⟩

section
variable (hh : Home h cwd) (hl : (h.node m).isSome)
include hh hl

theorem unlink_look (hm : h.node m = some ndm) (he : ndm.mem = .dir e)
    (hi : findEntry e name = some i) (hn : h.node (e i).ino = some ndn) (hne : m ≠ (e i).ino) :
    Holds h (unlinked h m i (e i).ino) ∧ Removed h (unlinked h m i (e i).ino) m e i := by
  have ho := (over_grab hh.valid hl).grab (show (h.node (e i).ino).isSome by rw [hn]; rfl)
  have hm1 := ho.node ▸ hm
  have hn1 := ho.node ▸ hn
  obtain ⟨hv2, hrefs2, hpoints2⟩ := remove_spec ho.valid hm1 he i (by rw [hn1]; rfl)
  have hlook2 := remove_look (i := i) ho.valid hm1 he hn1 hne
  rw [if_neg (by rw [ho.refs]; simp), look_eq ho.node] at hlook2
  unfold unlinked
  generalize ((h.grab m).grab (e i).ino).remove m i (e i).ino = g at hv2 hrefs2 hpoints2 hlook2 ⊢
  have hrefn : g.refs (e i).ino = h.refs (e i).ino + 1 := by
    rw [hrefs2, ho.refs]
    simp [hne]
  have hh2 : Holds h g := ⟨hv2, fun k => by rw [hrefs2, ho.refs]; omega, fun hp => hpoints2 (ho.points hp)⟩
  have hh3 := hh2.release hh.valid (n := (e i).ino) (by omega)
  have hrefm : (g.release (e i).ino).refs m = h.refs m + 1 := by
    rw [release_refs hv2 (by omega), update_of_ne hne, hrefs2, ho.refs]
    simp [hne.symm]
  refine ⟨hh3.release hh.valid (by omega), (findEntry_lt hi).1, hne, ndm.links, ndn.mem.entries, ndn.links, look_dir hm he,
    look_some hn, ?_⟩
  have hlook3 := release_look hv2 (n := (e i).ino) (by rw [hlook2, update_self]) (by omega)
  rw [hlook2, update_idem] at hlook3
  have hlookm : (g.release (e i).ino).look m = some (some (update e i ⟨(e i).ino, []⟩), ndm.links) := by
    rw [hlook3, update_of_ne hne, setTable, update_self]
  -- the directory had links if nothing else holds it, so putting it frees nothing
  have hstays : ¬ (h.refs m + 1 = 1 ∧ ndm.links = 0) :=
    fun hc => (linked_iff hh.valid).1 hh.linked m _ _ (by omega) (look_dir hm he) hc.2
  rw [release_look hh3.valid hlookm (by omega), hrefm, if_neg hstays, ← hlookm, update_eq_self, hlook3]
  congr 1
  unfold leftOf
  by_cases hd : h.refs (e i).ino = 0 ∧ ndn.links = 1
  · rw [if_pos hd, if_pos ⟨by omega, by omega⟩]
  · rw [if_neg hd, if_neg (by omega)]

/-- `do_unlink` in the parent directory has removed the name, or done nothing. -/
theorem unlinkAt_net (hr : unlinkAt (h.ptr m) name (h.grab m) = .ok r g') :
    Holds h g' ∧ (g'.look = h.look ∨
      ∃ e i l, findEntry e name = some i ∧ h.look (e i).ino = some (none, l) ∧ Removed h g' m e i) := by
  have hv := hh.valid
  have hk := hh.linked
  obtain ⟨err, hentry, hr'⟩ | ⟨n, hentry, hn, hr'⟩ := lookup_bind hv hl hr
  · obtain ⟨_, g2, hput, hr'⟩ := bind_ok_iff.1 hr'
    obtain rfl := (vput_dir hv hl).1 hput
    obtain ⟨rfl, rfl⟩ := pure_ok_iff.1 hr'
    exact ⟨(over_put hv hk hl).holds, .inl (look_eq (over_put hv hk hl).node)⟩
  obtain ⟨nd, hnd⟩ := isSome_iff_exists.1 hn
  obtain ⟨v, hd, hmode⟩ := deref_found (m := m) hv hnd
  simp only at hr'
  rw [bind_ok _ hd, hmode] at hr'
  by_cases hdir : nd.mem.mode = .dir
  · rw [if_neg (not_not.2 hdir), put_dir_after hv hl,
      put_found hv hl hn] at hr'
    obtain ⟨rfl, rfl⟩ := pure_ok_iff.1 hr'
    exact ⟨(over_put_found hv hk hl hn).holds, .inl (look_eq (over_put_found hv hk hl hn).node)⟩
  · rw [if_pos hdir] at hr'
    obtain ⟨ndm, e, i, hm, he, hi, rfl⟩ := entry_ok.1 hentry
    obtain ⟨hne, g2, g3, hunlink, hput3, hput4, -⟩ := unlink_found hv hl hm he hi hnd hdir
    rw [bind_ok _ hunlink, bind_ok _ hput3, bind_ok _ hput4] at hr'
    obtain ⟨rfl, rfl⟩ := pure_ok_iff.1 hr'
    obtain ⟨hholds, hremoved⟩ := unlink_look hh hl hm he hi hnd hne
    refine ⟨hholds, .inr ⟨e, i, nd.links, hi, ?_, hremoved⟩⟩
    rw [look_some hnd, entries_none hdir]

/-- `do_rmdir` has removed an empty directory, or done nothing. -/
theorem rmdirIn_net (hr : rmdirIn name (h.ptr m) (h.grab m) = .ok r g')
    (hname : name ≠ []) : Holds h g' ∧ (g'.look = h.look ∨ ∃ e i e' l, findEntry e name = some i ∧
      name ≠ [dot] ∧ name ≠ [dot, dot] ∧ h.look (e i).ino = some (some e', l) ∧ dirEmpty e' = true ∧
        Removed h g' m e i) := by
  have hv := hh.valid
  have hk := hh.linked
  unfold rmdirIn at hr
  split_ifs at hr with hdot hdots
  · obtain ⟨rfl, rfl⟩ := pure_ok_iff.1 hr
    exact ⟨.grab hv hl, .inl (look_eq grab_node)⟩
  · obtain ⟨rfl, rfl⟩ := pure_ok_iff.1 hr
    exact ⟨.grab hv hl, .inl (look_eq grab_node)⟩
  obtain ⟨err, hentry, hr'⟩ | ⟨n, hentry, hn, hr'⟩ := lookup_bind hv hl hr
  · rw [put_dir hv hl] at hr'
    obtain ⟨rfl, rfl⟩ := pure_ok_iff.1 hr'
    exact ⟨(over_put hv hk hl).holds, .inl (look_eq (over_put hv hk hl).node)⟩
  obtain ⟨nd, hnd⟩ := isSome_iff_exists.1 hn
  obtain ⟨v, hd, hmode⟩ := deref_put hv hk hl hnd
  have ho := over_put_found hv hk hl hn
  rw [put_dir_after hv hl] at hr'
  simp only at hr'
  rw [bind_ok _ hd, hmode] at hr'
  by_cases hdir : nd.mem.mode = .dir
  swap
  · rw [if_neg hdir, put_found hv hl hn] at hr'
    obtain ⟨rfl, rfl⟩ := pure_ok_iff.1 hr'
    exact ⟨ho.holds, .inl (look_eq ho.node)⟩
  rw [if_pos hdir, put_found hv hl hn] at hr'
  obtain ⟨y, g2, hy, hr'⟩ := bind_ok_iff.1 hr'
  have hg : g2 = g' := by
    cases y with
    | error err | ok u => exact (pure_ok_iff.1 hr').2
  subst hg
  obtain ⟨-, e, he, hcases⟩ := (ramfsRmdir_ok ho.valid).1 hy
  obtain ⟨ndm, hm, hme⟩ := he.node
  rw [ho.node, ptr_vno] at hm
  rcases hcases with ⟨-, -, rfl⟩ | ⟨i, ndn, hi, hndn, hcases⟩
  · exact ⟨ho.holds, .inl (look_eq ho.node)⟩
  rw [ho.node] at hndn
  have hlive : (h.node (e i).ino).isSome := by rw [hndn]; rfl
  have hsame : Holds h (((((h.grab m).grab n).release m).release n).grab (e i).ino |>.release (e i).ino) ∧
      (((((h.grab m).grab n).release m).release n).grab (e i).ino |>.release (e i).ino).look = h.look := by
    have ho' := (ho.grab hlive).release hv hk (by simp : (e i).ino ∈ [(e i).ino])
    exact ⟨ho'.holds, look_eq ho'.node⟩
  rcases hcases with ⟨-, -, rfl⟩ | ⟨e', he', ⟨hempty, -, hg⟩ | ⟨-, -, rfl⟩⟩
  · exact ⟨hsame.1, .inl hsame.2⟩
  · have hne : m ≠ (e i).ino := by
      -- a directory that names itself is not empty
      intro hne
      rw [← hne, hm] at hndn
      cases hndn
      rw [hme] at he'
      cases he'
      obtain ⟨hlt, hkey⟩ := findEntry_lt hi
      have hall := List.all_eq_true.1 hempty i (List.mem_range.2 hlt)
      simp [hkey, hname, hdot, hdots] at hall
    rw [ptr_vno] at hg
    obtain ⟨hholds, hremoved⟩ := removed_of_remove ho hm hme hi hndn hne
    rw [hg] at hholds hremoved
    refine ⟨hholds, .inr ⟨e, i, e', ndn.links, hi, hdot, hdots, ?_, hempty, hremoved⟩⟩
    exact look_dir hndn he'
  · exact ⟨hsame.1, .inl hsame.2⟩

end

end Remove

/-! ### Adding -/

section Add

variable {h g g' : Fs} {m n i ino : ℕ} {nd ndm ndn : Node} {e : ℕ → Dirent} {name : CStr} {cwd old : VPtr} {r : ℤ}

def addTo (e : ℕ → Dirent) (i n : ℕ) (name : CStr) : ℕ → Dirent := update e i ⟨n, name.take (nameLen - 1)⟩

/-- The file `n` has a new name, and a link more. -/
structure NameAdded (h g : Fs) (m : ℕ) (e : ℕ → Dirent) (i n : ℕ) (name : CStr) : Prop where
  new : findEntry e name = none
  free : findEntry e [] = some i
  look : ∃ lm ln, h.look m = some (some e, lm) ∧ h.look n = some (none, ln) ∧
    g.look = update (setTable h.look m (addTo e i n name) lm) n (some (none, ln + 1))

/-- A new inode has a name, with the entries `en` if it is a directory. -/
structure Made (h g : Fs) (m : ℕ) (e : ℕ → Dirent) (i n : ℕ) (name : CStr) (en : Option (ℕ → Dirent)) : Prop where
  new : findEntry e name = none
  free : findEntry e [] = some i
  dead : h.look n = none
  look : ∃ lm, h.look m = some (some e, lm) ∧
    g.look = update (setTable h.look m (addTo e i n name) lm) n (some (en, 1))

/-- A change to the disk that leaves the vnodes. -/
theorem Holds.of_vnodes (hh : Holds h g) (hv : g'.Valid) (hvn : g'.vnodes = g.vnodes) : Holds h g' := by
  refine ⟨hv, fun k => ?_, fun hp => ?_⟩
  · have := hh.refs k
    unfold Fs.refs at this ⊢
    rwa [hvn]
  have := hh.points hp
  unfold Fs.Points at this ⊢
  rwa [hvn]

theorem ne_of_entries (hm : h.look m = some (some e, ndm.links)) {l : ℤ} (hn : h.look n = some (none, l)) : m ≠ n := by
  rintro rfl
  rw [hm] at hn
  cases hn

/-- `ramfs_link` on top of `h`. -/
theorem ramfsLink_net (ho : Over h g []) {dir : VPtr} {x : Except Errno Unit} {l : ℤ}
    (hfile : h.look old.vno = some (none, l)) (hx : ramfsLink old dir name g = .ok x g') :
    Holds h g' ∧ (g'.look = h.look ∨ 0 < h.refs old.vno ∧ ∃ e i, NameAdded h g' dir.vno e i old.vno name) := by
  obtain ⟨hp, e, he, hnew, ⟨hfull, rfl, rfl⟩ | ⟨i, hi, rfl, rfl⟩⟩ := (ramfsLink_ok ho.valid).1 hx
  · exact ⟨ho.holds, .inl (look_eq ho.node)⟩
  obtain ⟨ndm, hm, hme⟩ := he.node
  have hlm := look_dir hm hme
  have hlook := look_eq ho.node
  rw [hlook] at hlm
  have hne := ne_of_entries hlm hfile
  obtain ⟨hv1, hvn1, hnode1⟩ := enter_spec ho.valid hm hme i old.vno name
  have hlook1 := look_update hnode1
  rw [hlook] at hlook1
  have hfile1 : (g.enter dir.vno i old.vno name).look old.vno = some (none, l) := by
    rw [hlook1, update_of_ne hne.symm, hfile]
  obtain ⟨ndo, hndo, heo, hlo⟩ := node_of_look hfile1
  obtain ⟨hv2, hvn2, hnode2⟩ := relink_spec hv1 hndo 1
  have hlook2 := look_update hnode2
  have hcore := hp.refs_pos ho.valid
  rw [ho.refs_eq] at hcore
  refine ⟨(ho.holds.of_vnodes hv1 hvn1).of_vnodes hv2 hvn2,
    .inr ⟨hcore, e, i, hnew, hi, ndm.links, l, hlm, hfile, ?_⟩⟩
  rw [hlook2, hlook1]
  simp only [map_some, heo, hlo]
  rfl

/-- `do_link` in the directory of the new name has added it, or done nothing. -/
theorem linkAt_net (hh : Home h cwd) (hl : (h.node m).isSome) {l : ℤ} (hfile : h.look old.vno = some (none, l))
    (hr : linkAt old (h.ptr m) name (h.grab m) = .ok r g') :
    Holds h g' ∧ (g'.look = h.look ∨ 0 < h.refs old.vno ∧ ∃ e i, NameAdded h g' m e i old.vno name) := by
  have hv := hh.valid
  have hk := hh.linked
  obtain ⟨err, hentry, hr'⟩ | ⟨n, hentry, hn, hr'⟩ := lookup_bind hv hl hr
  swap
  · simp only at hr'
    rw [put_dir_after hv hl, put_found hv hl hn] at hr'
    obtain ⟨rfl, rfl⟩ := pure_ok_iff.1 hr'
    exact ⟨(over_put_found hv hk hl hn).holds, .inl (look_eq (over_put_found hv hk hl hn).node)⟩
  simp only at hr'
  rw [put_dir hv hl] at hr'
  obtain ⟨y, g2, hy, hr'⟩ := bind_ok_iff.1 hr'
  have hnet := ramfsLink_net (over_put hv hk hl) hfile hy
  rw [ptr_vno] at hnet
  cases y with
  | error err' =>
    obtain ⟨rfl, rfl⟩ := pure_ok_iff.1 hr'
    exact hnet
  | ok u =>
    obtain ⟨rfl, rfl⟩ := pure_ok_iff.1 hr'
    exact hnet

theorem NameAdded.linked (hn : NameAdded h g m e i n name) (hh : Holds h g) (hv : h.Valid) (hk : h.Linked)
    (hcore : 0 < h.refs n) : g.Linked := by
  obtain ⟨-, -, lm, ln, hm, -, hlook⟩ := hn
  exact linked_of_look hh hv hk hm hlook fun _ _ h0 => by omega

theorem Made.linked {en : Option (ℕ → Dirent)} (hm : Made h g m e i n name en) (hh : Holds h g) (hv : h.Valid)
    (hk : h.Linked) : g.Linked := by
  obtain ⟨-, -, -, lm, hlm, hlook⟩ := hm
  refine linked_of_look hh hv hk hlm hlook fun en' l _ hx => ?_
  cases hx
  exact one_ne_zero

/-- What a function that makes a file leaves on the disk, `en` being the entries of the new inode. -/
def MadeLook (made : Fs → ℕ → ℕ → Fs) (dir : VPtr) (name : CStr) (memory : Bool) (en : ℕ → Option (ℕ → Dirent)) : Prop :=
  ∀ {g e i ino}, g.Valid → g.Dir dir e → g.Room e memory i ino → ∃ lm, g.look dir.vno = some (some e, lm) ∧
    (made g i ino).look = update (setTable g.look dir.vno (addTo e i ino name) lm) ino (some (en ino, 1))

theorem enter_alloc_look {dir : VPtr} {memory : Bool} (hv : g.Valid) (he : g.Dir dir e) (hr : g.Room e memory i ino)
    (name : CStr) (mem : Mem) : ∃ lm, g.look dir.vno = some (some e, lm) ∧
      ((g.alloc ino mem).enter dir.vno i ino name).look =
        update (setTable g.look dir.vno (addTo e i ino name) lm) ino (some (mem.entries, 1)) := by
  have hne := he.ne_freeInode hr.2.1
  obtain ⟨hv1, -, -, hnode1⟩ := alloc_spec hv hr.2.1 mem
  obtain ⟨nd, hnd, hme⟩ := he.node
  have hnd1 : (g.alloc ino mem).node dir.vno = some nd := by
    rw [hnode1, update_of_ne hne, hnd]
  obtain ⟨-, -, hnode2⟩ := enter_spec hv1 hnd1 hme i ino name
  refine ⟨nd.links, look_dir hnd hme, ?_⟩
  rw [look_update hnode2, look_update hnode1, setTable, update_comm hne.symm]
  rfl

theorem mknod_look (dir : VPtr) (name : CStr) (memory : Bool) {mode devid : ℕ} {mem : Mem}
    (hmem : specialMem mode devid = some mem) :
    MadeLook (fun g i ino => (g.alloc ino mem).enter dir.vno i ino name) dir name memory fun _ => none := by
  intro g e i ino hv he hr
  have hnone : mem.entries = none := by
    apply entries_none
    unfold specialMem at hmem
    split_ifs at hmem
    · cases hmem
      exact nofun
    · cases hmem
      exact nofun
  obtain ⟨lm, hlm, hlook⟩ := enter_alloc_look hv he hr name mem
  rw [hnone] at hlook
  exact ⟨lm, hlm, hlook⟩

theorem mkdir_look (dir : VPtr) (name : CStr) (memory : Bool) :
    MadeLook (fun g i ino => ((g.alloc ino (.dir noEntries)).enter dir.vno i ino name).setInode ino
      (some ⟨2 * direntSize, ino, .dir (dotEntries ino dir.vno), 1⟩)) dir name memory
        fun ino => some (dotEntries ino dir.vno) := by
  intro g e i ino hv he hr
  obtain ⟨lm, hlm, hlook⟩ := enter_alloc_look hv he hr name (.dir noEntries)
  obtain ⟨-, -, hcore, -⟩ := alloc_spec hv hr.2.1 (.dir noEntries)
  obtain ⟨-, hvn2, -⟩ := enter_alloc_spec hv he hr name (.dir noEntries)
  refine ⟨lm, hlm, ?_⟩
  rw [look_update setInode_node, hlook, update_idem, hvn2, hcore]
  rfl

/-- `do_mknod` and `do_mkdir` in the parent directory. The vnode of the new file stays in core if it is found again. -/
theorem makeAt_net (hh : Home h cwd) (hl : (h.node m).isSome) {memory : Bool} {make : FsM (Except Errno Unit)}
    {made : Fs → ℕ → ℕ → Fs} {en : ℕ → Option (ℕ → Dirent)} (hmake : Makes make (h.ptr m) name memory made)
    (hlook : MadeLook made (h.ptr m) name memory en) (hr : makeAt (h.ptr m) name make (h.grab m) = .ok r g') :
    Holds h g' ∧ (r ≠ 0 ∧ g'.look = h.look ∨ ∃ e i ino, Made h g' m e i ino name (en ino) ∧
      (name.length < nameLen → 0 < g'.refs ino)) := by
  have hv := hh.valid
  have hk := hh.linked
  have ho := over_put hv hk hl
  obtain ⟨err, hentry, hr'⟩ | ⟨n, hentry, hn, hr'⟩ := lookup_bind hv hl hr
  swap
  · rw [put_dir_after hv hl] at hr'
    simp only at hr'
    rw [put_found hv hl hn] at hr'
    obtain ⟨rfl, rfl⟩ := pure_ok_iff.1 hr'
    exact ⟨(over_put_found hv hk hl hn).holds, .inl ⟨neg_code_ne _, look_eq (over_put_found hv hk hl hn).node⟩⟩
  rw [put_dir hv hl] at hr'
  rcases entry_error hentry with rfl | rfl
  · obtain ⟨rfl, rfl⟩ := pure_ok_iff.1 hr'
    exact ⟨ho.holds, .inl ⟨neg_code_ne _, look_eq ho.node⟩⟩
  obtain ⟨y, g2, hy, hr'⟩ := bind_ok_iff.1 hr'
  obtain ⟨e, he, hnew, ⟨-, rfl, rfl⟩ | ⟨i, ino, hroom, rfl, rfl⟩⟩ := (hmake.ok ho.valid).1 hy
  · obtain ⟨rfl, rfl⟩ := pure_ok_iff.1 hr'
    exact ⟨ho.holds, .inl ⟨neg_code_ne _, look_eq ho.node⟩⟩
  obtain ⟨z, hz, rfl⟩ := bind_pure_iff.1 hr'
  have hv2 := hmake.valid ho.valid he hroom
  have hlive := hmake.live ho.valid he hroom
  have hholds : Holds h (made ((h.grab m).release m) i ino) :=
    ho.holds.of_vnodes hv2 (hmake.vnodes ho.valid he hroom)
  have hmade : Made h (made ((h.grab m).release m) i ino) m e i ino name (en ino) := by
    obtain ⟨lm, hlm, hlook'⟩ := hlook ho.valid he hroom
    rw [look_eq ho.node, ptr_vno] at hlm hlook'
    refine ⟨hnew, hroom.1, ?_, lm, hlm, hlook'⟩
    have hdead := (freeInode_some hroom.2.1).2
    rw [← look_eq ho.node, Fs.look, node_none.2 hdead]
    rfl
  rw [hmake.again ho.valid he hnew hroom] at hz
  split_ifs at hz with hlen
  · obtain ⟨-, rfl⟩ := hz
    refine ⟨hholds.trans (.grab hv2 hlive), .inr ⟨e, i, ino, ?_, fun _ => ?_⟩⟩
    · obtain ⟨hnew, hfree, hdead, lm, hlm, hl'⟩ := hmade
      exact ⟨hnew, hfree, hdead, lm, hlm, (look_eq grab_node).trans hl'⟩
    · rw [grab_refs hlive, update_self]
      omega
  · obtain ⟨-, rfl⟩ := hz
    exact ⟨hholds, .inr ⟨e, i, ino, hmade, fun h' => absurd h' hlen⟩⟩

end Add

end Weenix.Vfs
