import Mathlib.Tactic

/-! The vnode cache, `fs/vnode.c`: `vref`, `vget` and `vput` of any number of threads, cut at the
points where a thread can block. No pages are cached, so `vn_nrespages` is zero throughout. -/

namespace Weenix.VnodeCache

structure Vnode where
  fs : ℕ
  vno : ℕ
  /-- `VN_BUSY` in `vn_flags`. -/
  busy : Bool
  refcount : ℤ
  waitq : List ℕ

/-- Where a thread is. -/
inductive Point
  /-- Outside `vget` and `vput`. -/
  | out
  /-- Asleep on the queue of a busy vnode in `vget`. -/
  | asleep (a fs vno : ℕ)
  /-- About to go on at the label `find` of `vget`. -/
  | find (fs vno : ℕ)
  /-- In the file system's `read_vnode`, called by `vget`. -/
  | reading (a : ℕ)
  /-- In the file system's `delete_vnode`, called by `vput`. -/
  | deleting (a : ℕ)
  deriving DecidableEq

structure State where
  /-- `vnode_inuse_list`, by the addresses of the vnodes. -/
  inuse : List ℕ
  vn : ℕ → Vnode
  point : ℕ → Point

def State.init : State := ⟨[], fun _ => ⟨0, 0, false, 0, []⟩, fun _ => .out⟩

/-- What the outside sees: references handed out and put, and calls of the file system. -/
inductive Entry
  | handed (a : ℕ)
  | put (a : ℕ)
  | read (fs vno : ℕ)
  | delete (fs vno : ℕ)
  deriving DecidableEq

inductive Stop
  | kassert
  /-- The thread is not at a point where it can do this. -/
  | elsewhere

def State.setVn (s : State) (a : ℕ) (v : Vnode) : State := { s with vn := Function.update s.vn a v }

def State.setPoint (s : State) (t : ℕ) (p : Point) : State := { s with point := Function.update s.point t p }

def schedSleepOn (s : State) (t a fs vno : ℕ) : State :=
  (s.setVn a { s.vn a with waitq := t :: (s.vn a).waitq }).setPoint t (.asleep a fs vno)

/-- A thread that is woken goes on at the label `find`. -/
def Point.woken : Point → Point
  | .asleep _ fs vno => .find fs vno
  | p => p

def schedBroadcastOn (s : State) (a : ℕ) : State :=
  { s.setVn a { s.vn a with waitq := [] } with
    point := fun t => if t ∈ (s.vn a).waitq then (s.point t).woken else s.point t }

def vref (s : State) (a : ℕ) : Except Stop State :=
  if 0 < (s.vn a).refcount then .ok (s.setVn a { s.vn a with refcount := (s.vn a).refcount + 1 })
  else .error .kassert

/-- `vget` from the label `find` to where it returns or blocks. `alloc` is what `slab_obj_alloc`
returns. -/
def vgetFind (s : State) (t fs vno : ℕ) (alloc : Option ℕ) : Except Stop (State × List Entry) :=
  match s.inuse.find? fun a => (s.vn a).fs = fs ∧ (s.vn a).vno = vno with
  | some a =>
    if (s.vn a).busy then .ok (schedSleepOn s t a fs vno, [])
    else do
      let s ← vref s a
      return (s.setPoint t .out, [.handed a])
  | none =>
    match alloc with
    | none => .ok (s.setPoint t (.find fs vno), [])
    | some a =>
      let s := s.setVn a { fs := fs, vno := vno, busy := true, refcount := 0, waitq := [] }
      .ok ({ s with inuse := a :: s.inuse }.setPoint t (.reading a), [.read fs vno])

/-- `vget` behind the call of `read_vnode`. -/
def vgetRead (s : State) (t a : ℕ) : State × List Entry :=
  ((s.setVn a { s.vn a with busy := false, refcount := 1 }).setPoint t .out, [.handed a])

/-- `vput` behind the call of `delete_vnode`. -/
def vputDeleted (s : State) (t a : ℕ) : State :=
  let s := (schedBroadcastOn s a).setPoint t .out
  { s with inuse := s.inuse.erase a }

/-- `vput` to where it returns or calls `delete_vnode`, if the file system has one. The loop over
the pages finds none. -/
def vput (deletes : ℕ → Bool) (s : State) (t a : ℕ) : Except Stop (State × List Entry) :=
  let v := s.vn a
  if ¬0 < v.refcount ∨ v.busy then .error .kassert
  else if 0 < v.refcount - 1 then .ok (s.setVn a { v with refcount := v.refcount - 1 }, [.put a])
  else
    let s := s.setVn a { v with refcount := v.refcount - 1, busy := true }
    if deletes v.fs then .ok (s.setPoint t (.deleting a), [.put a, .delete v.fs v.vno])
    else .ok (vputDeleted s t a, [.put a])

inductive Event
  | vget (t fs vno : ℕ) (alloc : Option ℕ)
  | vref (t a : ℕ)
  | vput (t a : ℕ)
  | resume (t : ℕ) (alloc : Option ℕ)

/-- The thread goes on where it blocked. -/
def resume (s : State) (t : ℕ) (alloc : Option ℕ) : Except Stop (State × List Entry) :=
  match s.point t with
  | .find fs vno => vgetFind s t fs vno alloc
  | .reading a => .ok (vgetRead s t a)
  | .deleting a => .ok (vputDeleted s t a, [])
  | .out => .error .elsewhere
  | .asleep _ _ _ => .error .elsewhere

def exec (deletes : ℕ → Bool) (s : State) : Event → Except Stop (State × List Entry)
  | .vget t fs vno alloc => if s.point t = .out then vgetFind s t fs vno alloc else .error .elsewhere
  | .vref t a =>
    if s.point t = .out then do
      let s ← VnodeCache.vref s a
      return (s, [.handed a])
    else .error .elsewhere
  | .vput t a => if s.point t = .out then VnodeCache.vput deletes s t a else .error .elsewhere
  | .resume t alloc => VnodeCache.resume s t alloc

end Weenix.VnodeCache
