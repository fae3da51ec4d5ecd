import Weenix.Lib.Tally
import Weenix.Proofs.VfsOpen

/-! The reference counts of open files over every sequence of calls: a file that is in use has as
many references as there are descriptors of it. -/

namespace Weenix.Vfs

open Function Exec Option

open Tally (Counted)

namespace World

variable (w : World)

/-- Every file has as many references as descriptors, and is freed when it has none. -/
structure Balanced : Prop where
  counted : Counted w.slot w.count
  live : ∀ {f x}, w.file f = some x → 0 < x.refcount

/-- What is not allocated yet is not in use. -/
def Fresh : Prop := ∀ f, w.allocs ≤ f → w.file f = none

end World

/-- A file that was in use still is, with the same vnode, or it is freed and the vnode is released. -/
def Frees (w w' : World) : Prop := ∀ {f x}, w.file f = some x →
  (∃ x', w'.file f = some x' ∧ x'.vnode = x.vnode) ∨
    w'.file f = none ∧ ∀ vn, x.vnode = some vn → vput vn w.fs = .ok () w'.fs

section Effects

variable {w w₁ w' : World} {f pid : ℕ} {x : File} {i : ℕ × Fin nFiles}

/-- No descriptor and no count changes. -/
structure Steady (w w' : World) : Prop where
  slot : w'.slot = w.slot
  allocs : w'.allocs = w.allocs
  file : ∀ f, (w'.file f).map (fun x => (x.refcount, x.vnode)) = (w.file f).map fun x => (x.refcount, x.vnode)

theorem Steady.refl (w : World) : Steady w w := ⟨rfl, rfl, fun _ => rfl⟩

section
variable (h : Steady w w')
include h

theorem Steady.count : w'.count = w.count := by
  funext f
  have hf := congrArg (fun o : Option (ℕ × Option VPtr) => o.elim 0 Prod.fst) (h.file f)
  simpa [World.count, elim_map, Function.comp_def] using hf

theorem Steady.some (hx : w.file f = some x) :
    ∃ x', w'.file f = Option.some x' ∧ x'.refcount = x.refcount ∧ x'.vnode = x.vnode := by
  have hf := h.file f
  rw [hx, map_some, map_eq_some_iff] at hf
  obtain ⟨x', hx', heq⟩ := hf
  exact ⟨x', hx', congrArg Prod.fst heq, congrArg Prod.snd heq⟩

theorem Steady.none (hx : w.file f = none) : w'.file f = Option.none := by
  have hf := h.file f
  rwa [hx, map_none, map_eq_none_iff] at hf

theorem Steady.symm : Steady w' w := ⟨h.slot.symm, h.allocs.symm, fun f => (h.file f).symm⟩

theorem Steady.balanced (hb : w.Balanced) : w'.Balanced := by
  refine ⟨by rw [h.slot, h.count]; exact hb.counted, fun {f x} hx => ?_⟩
  obtain ⟨y, hy, hr, -⟩ := h.symm.some hx
  rw [← hr]
  exact hb.live hy

theorem Steady.fresh (hf : w.Fresh) : w'.Fresh := by
  intro f hle
  rw [h.allocs] at hle
  exact h.none (hf f hle)

theorem Steady.frees : Frees w w' := by
  intro f x hx
  obtain ⟨x', hx', -, hv⟩ := h.some hx
  exact .inl ⟨x', hx', hv⟩

end

section
variable {o : Option File} (h : w'.file = update w.file f o)
include h

theorem count_update : w'.count = update w.count f (o.elim 0 (·.refcount)) := by
  funext g
  by_cases hg : g = f
  · subst hg
    simp [World.count, h]
  · simp [World.count, h, hg]

theorem live_update (hb : w.Balanced) (ho : ∀ y ∈ o, 0 < y.refcount) {g : ℕ} {z : File}
    (hz : w'.file g = some z) : 0 < z.refcount := by
  rw [h] at hz
  by_cases hg : g = f
  · subst hg
    rw [update_self] at hz
    exact ho z hz
  · rw [update_of_ne hg] at hz
    exact hb.live hz

/-- A file that is in use is changed, or freed. -/
theorem none_update (hx : w.file f = some x) {g : ℕ} (hg : w.file g = none) : w'.file g = none := by
  have hne : g ≠ f := by
    rintro rfl
    rw [hg] at hx
    cases hx
  rw [h, update_of_ne hne]
  exact hg

theorem frees_update (hx : w.file f = some x) (ho : (∃ y, o = some y ∧ y.vnode = x.vnode) ∨
    o = none ∧ ∀ vn, x.vnode = some vn → vput vn w.fs = .ok () w'.fs) : Frees w w' := by
  intro g y hy
  rw [h]
  by_cases hg : g = f
  · subst hg
    obtain rfl : x = y := Option.some.inj (hx.symm.trans hy)
    rwa [update_self]
  · rw [update_of_ne hg]
    exact .inl ⟨y, hy, rfl⟩

end

/-- The open file `f` changes, and perhaps the file system; `k` references are added. -/
def Touched (w : World) (f k : ℕ) (w' : World) : Prop := ∃ x y fs, w.file f = some x ∧ y.vnode = x.vnode ∧
  y.refcount = x.refcount + k ∧ { w with fs := fs }.setFile f (some y) = w'

theorem Touched.slot {k : ℕ} (h : Touched w f k w') : w'.slot = w.slot := by
  obtain ⟨x, y, fs, -, -, -, rfl⟩ := h
  rfl

theorem Touched.count {k : ℕ} (h : Touched w f k w') : w'.count = update w.count f (w.count f + k) := by
  obtain ⟨x, y, fs, hx, -, hr, rfl⟩ := h
  rw [count_update (w := w) rfl]
  simp [World.count, hx, hr]

theorem Touched.frees {k : ℕ} (h : Touched w f k w') : Frees w w' := by
  obtain ⟨x, y, fs, hx, hv, -, rfl⟩ := h
  exact frees_update rfl hx (.inl ⟨y, rfl, hv⟩)

theorem Touched.fresh {k : ℕ} (h : Touched w f k w') (hf : w.Fresh) : w'.Fresh := by
  obtain ⟨x, y, fs, hx, -, -, rfl⟩ := h
  exact fun g hg => none_update rfl hx (hf g hg)

theorem Touched.live {k : ℕ} (h : Touched w f k w') (hb : w.Balanced) : ∀ {g x}, w'.file g = some x → 0 < x.refcount := by
  obtain ⟨x, y, fs, hx, -, hr, rfl⟩ := h
  refine live_update (w := w) rfl hb ?_
  rintro _ ⟨⟩
  have := hb.live hx
  omega

theorem Touched.onFs {k : ℕ} {α : Type} {m : FsM α} {a : α} (h : Touched w f k w₁) (hm : onFs m w₁ = .ok a w') :
    Touched w f k w' := by
  obtain ⟨x, y, fs, hx, hv, hr, rfl⟩ := h
  obtain ⟨fs', -, rfl⟩ := onFs_ok.1 hm
  exact ⟨x, y, fs', hx, hv, hr, rfl⟩

/-- Another position, or another mode. -/
theorem Touched.setFile {k : ℕ} {u : Unit} {z z' : File} (h : Touched w f k w₁) (hz : w₁.file f = some z)
    (hs : setFile f (some z') w₁ = .ok u w') (hv' : z'.vnode = z.vnode) (hr' : z'.refcount = z.refcount) :
    Touched w f k w' := by
  obtain ⟨x, y, fs, hx, hv, hr, rfl⟩ := h
  simp only [World.setFile, update_self, Option.some.injEq] at hz
  subst hz
  refine ⟨x, z', fs, hx, hv'.trans hv, hr'.trans hr, ?_⟩
  rw [← setFile_ok.1 hs]
  simp [World.setFile]

/-- The reference that was added is dropped. -/
theorem Touched.fput {k : ℕ} {u : Unit} (h : Touched w f (k + 1) w₁) (hb : w.Balanced) (hp : fput f w₁ = .ok u w') :
    Touched w f k w' := by
  obtain ⟨x, y, fs, hx, hv, hr, rfl⟩ := h
  have hpos := hb.live hx
  obtain ⟨y', hy', -, -, -, hcase⟩ := fput_ok.1 hp
  simp only [World.setFile, update_self, Option.some.injEq] at hy'
  subst hy'
  rcases hcase with ⟨-, rfl⟩ | ⟨h1, -⟩
  · exact ⟨x, { y with refcount := y.refcount - 1 }, fs, hx, hv, by simp only; omega, by simp [World.setFile]⟩
  · omega

end Effects

/-! ### Calls that give back what they take -/

section Calls

variable {w w₁ w' : World} {f pid k : ℕ} {fd : ℤ} {x : File}

theorem Touched.refl (hx : w.file f = some x) : Touched w f 0 w := by
  refine ⟨x, x, w.fs, hx, rfl, rfl, ?_⟩
  unfold World.setFile
  rw [← hx, update_eq_self]

theorem Touched.fref {u : Unit} (h : Touched w f k w₁) (hr : fref f w₁ = .ok u w') : Touched w f (k + 1) w' := by
  obtain ⟨x, y, fs, hx, hv, hy, rfl⟩ := h
  obtain ⟨z, hz, -, -, rfl⟩ := fref_ok.1 hr
  simp only [World.setFile, update_self, Option.some.injEq] at hz
  subst hz
  exact ⟨x, { y with refcount := y.refcount + 1 }, fs, hx, hv, by simp only; omega, by simp [World.setFile]⟩

theorem Touched.desc (h : Touched w f k w') : w'.desc = w.desc := by
  obtain ⟨x, y, fs, -, -, -, rfl⟩ := h
  rfl

theorem seekPos_same {offset : ℤ} {whence : ℕ} {r : Option ℤ} (h : seekPos f offset whence w = .ok r w') : w = w' := by
  match whence with
  | 0 | _ + 3 => exact (pure_ok_iff.1 h).2
  | 1 =>
    obtain ⟨x, _, hx, h⟩ := bind_ok_iff.1 h
    obtain ⟨-, rfl⟩ := fileAt_ok.1 hx
    exact (pure_ok_iff.1 h).2
  | 2 =>
    obtain ⟨x, _, hx, h⟩ := bind_ok_iff.1 h
    obtain ⟨-, -, -, rfl⟩ := fileVnode_ok.1 hx
    exact (pure_ok_iff.1 h).2

theorem Touched.seekFile {offset r : ℤ} {whence : ℕ} (h : Touched w f k w₁) (hb : w.Balanced)
    (hs : seekFile f offset whence w₁ = .ok r w') : Touched w f k w' := by
  obtain ⟨_, w2, href, hs⟩ := bind_ok_iff.1 hs
  obtain ⟨_, w3, hput, hs⟩ := bind_ok_iff.1 hs
  obtain ⟨pos, w4, hpos, hs⟩ := bind_ok_iff.1 hs
  have h3 := (h.fref href).fput hb hput
  obtain rfl := seekPos_same hpos
  cases pos with
  | none =>
    obtain ⟨-, rfl⟩ := pure_ok_iff.1 hs
    exact h3
  | some pos =>
    simp only at hs
    split at hs
    · obtain ⟨-, rfl⟩ := pure_ok_iff.1 hs
      exact h3
    obtain ⟨x, _, hx, hs⟩ := bind_ok_iff.1 hs
    obtain ⟨hfile, rfl⟩ := fileAt_ok.1 hx
    obtain ⟨_, hset, -⟩ := bind_pure_iff.1 hs
    exact h3.setFile hfile hset rfl rfl

def ReadDenied (x : File) (v : Vnode) : Prop := v.mode = .dir ∨ x.mode = 2 ∨ x.mode = 4 ∨ x.mode = 6

def WriteDenied (x : File) (v : Vnode) : Prop := v.mode = .dir ∨ x.mode = 1

def World.Opens (w : World) (pid : ℕ) (fd : ℤ) (x : File) (v : Vnode) : Prop :=
  ∃ f vn, w.desc pid fd = some f ∧ w.file f = some x ∧ x.vnode = some vn ∧ w.fs.deref vn = some v

theorem Touched.writeAt {buf : List UInt8} {driver : Option ℤ} {r : ℤ} (h : Touched w f 1 w₁) (hb : w.Balanced)
    (hw : writeAt f buf driver w₁ = .ok r w') : Touched w f 0 w' := by
  obtain ⟨⟨y, vn, v⟩, _, hvn, hw⟩ := bind_ok_iff.1 hw
  obtain ⟨hy, -, -, rfl⟩ := fileVnode_ok.1 hvn
  obtain ⟨count, w3, hwrite, hw⟩ := bind_ok_iff.1 hw
  obtain ⟨_, w4, hset, hw⟩ := bind_ok_iff.1 hw
  obtain ⟨_, hput, -⟩ := bind_pure_iff.1 hw
  have hy' : w3.file f = some y := by
    obtain ⟨fs, -, rfl⟩ := onFs_ok.1 hwrite
    exact hy
  exact ((h.onFs hwrite).setFile hy' hset rfl rfl).fput hb hput

end Calls

/-! ### Calls that change descriptors -/

section Slots

variable {w w₁ w' : World} {f pid : ℕ} {fd : ℤ} {x : File} {i : ℕ × Fin nFiles}

/-- A descriptor of `f` more, and a reference. -/
theorem World.Balanced.take (hb : w.Balanced) (hi : w.slot i = none) (hs : w'.slot = update w.slot i (some f))
    (hc : w'.count = update w.count f (w.count f + 1)) (hl : ∀ {g x}, w'.file g = some x → 0 < x.refcount) :
    w'.Balanced :=
  ⟨by rw [hs, hc]; exact hb.counted.take hi, hl⟩

theorem fput_effect {u : Unit} (h : fput f w = .ok u w') : w'.slot = w.slot ∧ w'.allocs = w.allocs ∧
    ∃ x, w.file f = some x ∧
      (x.refcount ≠ 1 ∧ w'.file = update w.file f (some { x with refcount := x.refcount - 1 }) ∨
        x.refcount = 1 ∧ w'.file = update w.file f none ∧
          ∀ vn, x.vnode = some vn → vput vn w.fs = .ok () w'.fs) := by
  obtain ⟨x, hx, -, -, -, ⟨h1, rfl⟩ | ⟨h1, w₁, hv, rfl⟩⟩ := fput_ok.1 h
  · exact ⟨rfl, rfl, x, hx, .inl ⟨h1, rfl⟩⟩
  cases hvn : x.vnode with
  | none =>
    rw [hvn] at hv
    obtain ⟨-, rfl⟩ := pure_ok_iff.1 hv
    exact ⟨rfl, rfl, x, hx, .inr ⟨h1, rfl, fun vn h' => absurd (hvn.symm.trans h') (by simp)⟩⟩
  | some vn =>
    rw [hvn] at hv
    obtain ⟨fs, hput, rfl⟩ := onFs_ok.1 hv
    refine ⟨rfl, rfl, x, hx, .inr ⟨h1, rfl, fun vn' h' => ?_⟩⟩
    obtain rfl : vn = vn' := Option.some.inj (hvn.symm.trans h')
    exact hput

/-- A descriptor less, and `fput`. -/
theorem World.Balanced.drop {u : Unit} (hb : w.Balanced) (hi : w.slot i = some f)
    (hs : w₁.slot = update w.slot i none) (hfile : w₁.file = w.file) (hfs : w₁.fs = w.fs)
    (hp : fput f w₁ = .ok u w') : w'.Balanced ∧ Frees w w' ∧ w'.slot = w₁.slot ∧ w'.allocs = w₁.allocs ∧
      ∀ {g}, w.file g = none → w'.file g = none := by
  obtain ⟨hslot, hallocs, x, hx, hcase⟩ := fput_effect hp
  rw [hfile] at hx hcase
  rw [hfs] at hcase
  have hcount : w.count f = x.refcount := by simp [World.count, hx]
  have hdrop := hb.counted.drop hi
  rw [hcount, ← hs, ← hslot] at hdrop
  rcases hcase with ⟨h1, h⟩ | ⟨h1, h, hv⟩
  · refine ⟨⟨by rw [count_update h]; exact hdrop, live_update h hb ?_⟩, frees_update h hx (.inl ⟨_, rfl, rfl⟩), hslot,
      hallocs, none_update h hx⟩
    rintro _ ⟨⟩
    have hpos := hb.live hx
    simp only
    omega
  · refine ⟨⟨?_, live_update h hb fun _ hy => by cases hy⟩, frees_update h hx (.inr ⟨rfl, hv⟩), hslot, hallocs, none_update h hx⟩
    rw [count_update h]
    rwa [h1] at hdrop

/-- What a call must keep. -/
structure Keeps (w w' : World) : Prop where
  balanced : w'.Balanced
  frees : Frees w w'

theorem Frees.fref {u : Unit} (h : Frees w w₁) (hr : fref f w₁ = .ok u w') : Frees w w' := by
  obtain ⟨x, hx, -, -, rfl⟩ := fref_ok.1 hr
  intro g y hy
  by_cases hg : g = f
  · subst hg
    rcases h hy with ⟨x', hx', hv⟩ | ⟨hnone, -⟩
    · obtain rfl : x = x' := Option.some.inj (hx.symm.trans hx')
      exact .inl ⟨_, update_self .., hv⟩
    · rw [hx] at hnone
      cases hnone
  · rcases h hy with ⟨x', hx', hv⟩ | ⟨hnone, hput⟩
    · exact .inl ⟨x', by simpa [World.setFile, hg] using hx', hv⟩
    · exact .inr ⟨by simpa [World.setFile, hg] using hnone, hput⟩

/-- A new file with one reference. -/
structure Grown (w w' : World) : Prop where
  allocs : w'.allocs = w.allocs + 1
  old : ∀ {g}, g ≠ w.allocs → w'.file g = w.file g
  new : ∃ x, w'.file w.allocs = some x ∧ x.refcount = 1

theorem Grown.fresh (h : Grown w w') (hf : w.Fresh) : w'.Fresh := by
  intro g hg
  have ha := h.allocs
  rw [h.old (by omega)]
  exact hf g (by omega)

theorem Grown.frees (h : Grown w w') (hf : w.Fresh) : Frees w w' := by
  intro g x hx
  have hne : g ≠ w.allocs := by
    rintro rfl
    rw [hf _ (le_refl _)] at hx
    cases hx
  exact .inl ⟨x, by rw [h.old hne]; exact hx, rfl⟩

theorem Grown.count (h : Grown w w') (hf : w.Fresh) :
    w'.count = update w.count w.allocs (w.count w.allocs + 1) := by
  obtain ⟨x, hx, hr⟩ := h.new
  have h0 : w.count w.allocs = 0 := by simp [World.count, hf _ (le_refl _)]
  funext g
  by_cases hg : g = w.allocs
  · subst hg
    rw [update_self, h0]
    simp [World.count, hx, hr]
  · rw [update_of_ne hg]
    simp [World.count, h.old hg]

theorem Grown.live (h : Grown w w') (hb : w.Balanced) {g : ℕ} (hx : w'.file g = some x) : 0 < x.refcount := by
  obtain ⟨y, hy, hr⟩ := h.new
  by_cases hg : g = w.allocs
  · subst hg
    obtain rfl : x = y := Option.some.inj (hx.symm.trans hy)
    omega
  · rw [h.old hg] at hx
    exact hb.live hx

end Slots

/-! ### All calls -/

/-- A call of a process that came back, and what it returned. -/
structure Done where
  pid : ℕ
  env : Env
  call : Syscall
  ret : ℤ

def Done.Step (e : Done) (w w' : World) : Prop := e.call.exec e.pid e.env w = .ok e.ret w'

/-- The path resolves, and not to a directory that is to be written. -/
def World.OpensPath (w : World) (pid : ℕ) (path : CStr) (oflags : ℤ) (env : Env) : Prop :=
  ∃ vn fs v, openNamev (w.proc pid).cwd path (openFlag oflags) env.memory w.fs = .ok (.ok vn) fs ∧
    fs.deref vn = some v ∧ ¬ (v.mode = .dir ∧ (oflags = 1 ∨ oflags = 2))

/-- The calls that give back every reference to an open file that they do not keep: a read or write
is not refused for what is open, a descriptor is not duplicated to itself or for want of a free one,
and a file that is allocated is opened and has a free descriptor. -/
def Done.Clean (e : Done) (w : World) : Prop :=
  match e.call with
  | .openPath path oflags => OddFlags oflags ∨ e.env.fileMemory = false ∨
      (∃ i : Fin nFiles, w.slot (e.pid, i) = none) ∧ w.OpensPath e.pid path oflags e.env
  | .dup fd => w.desc e.pid fd = none ∨ ∃ i : Fin nFiles, w.slot (e.pid, i) = none
  | .read fd _ => ∀ x v, w.Opens e.pid fd x v → ¬ ReadDenied x v
  | .write fd _ => ∀ x v, w.Opens e.pid fd x v → ¬ WriteDenied x v
  | .dup2 ofd nfd => ofd = nfd → w.desc e.pid ofd = none
  | _ => True

section Steps

variable {w w' : World} {pid : ℕ} {env : Env} {r : ℤ}

end Steps

end Weenix.Vfs
