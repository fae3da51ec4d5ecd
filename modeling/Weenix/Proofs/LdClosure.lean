import Weenix.Lib.Worklist
import Weenix.Spec.Ld

/-! The loading loop of the run-time linker is a search whose worklist is the chain of modules:
`_ldlinkobj` appends at the tail what `_ldstart` comes to later. It breaks off at the first
name that is known, and all its memory is one page. -/

namespace Weenix.Ld

open Worklist Function List

variable {opens : String → Option String → Option Object} {lib : String → Object} {exe o : Object}
  {s s' : State} {K : List String} {l : List Dyn} {name : String} {base size i j k : ℕ}

def neededOf (o : Object) : List Dyn → List String
  | [] => []
  | d :: l => match d.dTag with
    | .null => []
    | .needed => o.dynstr d.dVal :: neededOf o l
    | _ => neededOf o l

def Object.needed (o : Object) : List String := neededOf o o.dyn

/-- The modules met on the way from a pointer. -/
inductive Chain (mods : ℕ → Module) : Option ℕ → List ℕ → Prop
  | nil : Chain mods none []
  | cons {m : ℕ} {ms : List ℕ} : Chain mods (mods m).next ms → Chain mods (some m) (m :: ms)

/-- The chain is the executable and one module for each library that can be reached. -/
def Closure (exe : Object) (lib : String → Object) (s : State) : Prop :=
  ∃ (ms : List ℕ) (ns : List String), Chain s.mods (some s.ldfirst) (s.ldfirst :: ms) ∧
    (s.mods s.ldfirst).name = none ∧ ms.map (fun m => (s.mods m).name) = ns.map some ∧ ns.Nodup ∧
    ∀ n, n ∈ ns ↔ Reach (fun m => (lib m).needed) exe.needed n

/-- The memory in use with `n` libraries: their modules, two entries for each name, and the module of
the executable. -/
def used (n : ℕ) : ℕ := 60 + 76 * n

/-- Where the modules lie: the executable first, then each library behind the entry for its name. -/
def node (base : ℕ) : ℕ → ℕ
  | 0 => base
  | i + 1 => base + used i + 8

/-- The chain holds the libraries `K`. -/
structure Holds (base size : ℕ) (s : State) (K : List String) : Prop where
  start : s.start = base
  amount : s.amount = size
  pos : s.pos = used K.length
  room : used K.length ≤ size
  names : ∀ n, n ∈ s.names ↔ n ∈ K
  first : s.ldfirst = base
  exe : (s.mods base).name = none
  name : ∀ i, i < K.length → (s.mods (node base (i + 1))).name = K[i]?
  next : ∀ i, i ≤ K.length → (s.mods (node base i)).next = if i < K.length then some (node base (i + 1)) else none

theorem node_inj (h : node base i = node base j) : i = j := by
  cases i with
  | zero =>
    cases j with
    | zero => rfl
    | succ j =>
      simp only [node, used] at h
      omega
  | succ i =>
    cases j with
    | zero | succ j =>
      simp only [node, used] at h
      omega

/-! ### One library -/

theorem ldalloc_eq {n : ℕ} (hn : n % 4 = 0) : ldalloc s n =
    if s.amount < s.pos + n then .error (.alloc n) else .ok (s.start + s.pos, { s with pos := s.pos + n }) := by
  simp only [ldalloc, hn, ne_eq, not_true_eq_false, if_false]

theorem ldaddname_eq (s : State) (name : String) : ldaddname s name =
    if s.amount < s.pos + 8 then .error (.alloc 8)
    else .ok { s with pos := s.pos + 8, names := name :: s.names } := by
  rw [ldaddname, ldalloc_eq (by decide), sizeofModent]
  by_cases h : s.amount < s.pos + 8
  · rw [if_pos h, if_pos h]
    rfl
  · rw [if_neg h, if_neg h]
    rfl

def State.appended (s : State) (o : Object) (curmod : ℕ) (name : String) : State :=
  { s with
    pos := s.pos + 76
    names := name :: name :: s.names
    mods := update (update s.mods curmod { s.mods curmod with next := some (s.start + s.pos + 8) })
      (s.start + s.pos + 8)
      ⟨some name, if dRpath 0 o.dyn ≠ 0 then some (o.dynstr (dRpath 0 o.dyn)) else none, none, s.ldfirst⟩ }

section
variable {d : Dyn} (hd : d.dTag = .needed) (hk : ldchkname s (o.dynstr d.dVal) = false)
include hd hk

theorem linkNeeded_append (h : s.pos + 76 ≤ s.amount) (curmod : ℕ) : linkNeeded o (d :: l) curmod s =
    linkNeeded o l (s.start + s.pos + 8) (s.appended o curmod (o.dynstr d.dVal)) := by
  have h8 : ¬ s.amount < s.pos + 8 := by omega
  have h68 : ¬ s.amount < s.pos + 8 + sizeofModule := by rw [sizeofModule]; omega
  have h76 : ¬ s.amount < s.pos + 8 + sizeofModule + 8 := by rw [sizeofModule]; omega
  have hmod : sizeofModule % 4 = 0 := by decide
  simp only [linkNeeded, hd, hk, ldaddname_eq, ldalloc_eq hmod, h8, if_false, State.setMod,
    Except.bind, bind, h68, h76, Bool.false_eq_true]
  simp only [State.appended, update_self, update_idem, Nat.add_assoc, sizeofModule]

theorem linkNeeded_full (h : s.amount < s.pos + 76) (curmod : ℕ) :
    ∃ n, linkNeeded o (d :: l) curmod s = .error (.alloc n) := by
  have hmod : sizeofModule % 4 = 0 := by decide
  by_cases h8 : s.amount < s.pos + 8
  · exact ⟨8, by simp [linkNeeded, hd, hk, ldaddname_eq, h8, bind, Except.bind]⟩
  by_cases h68 : s.amount < s.pos + 8 + sizeofModule
  · exact ⟨sizeofModule, by simp [linkNeeded, hd, hk, ldaddname_eq, ldalloc_eq hmod, h8, h68, bind, Except.bind]⟩
  have h76 : s.amount < s.pos + 8 + sizeofModule + 8 := by rw [sizeofModule]; omega
  exact ⟨8, by simp [linkNeeded, hd, hk, ldaddname_eq, ldalloc_eq hmod, h8, h68, h76, State.setMod, bind, Except.bind]⟩

end

theorem Holds.known (h : Holds base size s K) (name : String) : ldchkname s name = true ↔ name ∈ K := by
  rw [← h.names, ldchkname, any_eq_true]
  simp

theorem Holds.addr (h : Holds base size s K) : s.start + s.pos + 8 = node base (K.length + 1) := by
  rw [h.start, h.pos, node]

theorem Holds.appended (h : Holds base size s K) (o : Object) (name : String) (hroom : used (K.length + 1) ≤ size) :
    Holds base size (s.appended o (node base K.length) name) (K ++ [name]) := by
  have hlen : (K ++ [name]).length = K.length + 1 := by simp
  have hne : ∀ {i}, i ≤ K.length → node base i ≠ node base (K.length + 1) := fun hi he => by
    have := node_inj he
    omega
  have hself : (s.appended o (node base K.length) name).mods (node base (K.length + 1)) =
      ⟨some name, if dRpath 0 o.dyn ≠ 0 then some (o.dynstr (dRpath 0 o.dyn)) else none, none, s.ldfirst⟩ := by
    rw [← h.addr]
    exact update_self _ _ _
  have hother : ∀ {i}, i ≤ K.length → (s.appended o (node base K.length) name).mods (node base i) =
      if i = K.length then { s.mods (node base i) with next := some (node base (K.length + 1)) }
      else s.mods (node base i) := by
    intro i hi
    have hup := update_of_ne (h.addr ▸ hne hi) ⟨some name, if dRpath 0 o.dyn ≠ 0 then some (o.dynstr (dRpath 0 o.dyn))
      else none, none, s.ldfirst⟩ (update s.mods (node base K.length)
        { s.mods (node base K.length) with next := some (s.start + s.pos + 8) })
    refine hup.trans ?_
    by_cases he : i = K.length
    · rw [if_pos he, he, update_self, h.addr]
    · rw [if_neg he, update_of_ne fun hn => he (node_inj hn)]
  refine ⟨h.start, h.amount, ?_, ?_, fun n => ?_, h.first, ?_, fun i hi => ?_, fun i hi => ?_⟩
  · show s.pos + 76 = _
    rw [h.pos, hlen, used, used]
    omega
  · rwa [hlen]
  · show n ∈ name :: name :: s.names ↔ _
    simp [h.names, or_comm]
  · have h0 := hother (Nat.zero_le K.length)
    rw [node] at h0
    rw [h0]
    split_ifs
    · exact h.exe
    · exact h.exe
  · rw [hlen] at hi
    rcases Nat.lt_succ_iff_lt_or_eq.1 hi with hlt | rfl
    · rw [hother hlt, List.getElem?_append_left hlt]
      split_ifs
      · exact h.name i hlt
      · exact h.name i hlt
    · rw [hself, List.getElem?_append_right le_rfl, Nat.sub_self]
      rfl
  · rw [hlen] at hi ⊢
    rcases Nat.le_succ_iff.1 hi with hle | rfl
    · rw [hother hle, if_pos (Nat.lt_succ_of_le hle)]
      by_cases he : i = K.length
      · rw [if_pos he, he]
      · rw [if_neg he, h.next i hle, if_pos (by omega)]
    · rw [hself, if_neg (lt_irrefl _)]

/-! ### One object -/

section
variable {α β : Type} {K' : List String} {x : ℕ → Except Panic α} {P : α → Prop} {Q : β → Prop}

/-- How a function ends, with any amount of fuel: as said, if there is room for the libraries `K`. -/
def Ends (size : ℕ) (K : List String) (x : ℕ → Except Panic α) (P : α → Prop) : Prop :=
  if used K.length ≤ size then ∃ a, (∀ k, x k = .ok a) ∧ P a else ∃ n, ∀ k, x k = .error (.alloc n)

theorem Ends.done {a : α} (hroom : used K.length ≤ size) (h : P a) : Ends size K (fun _ => .ok a) P := by
  rw [Ends, if_pos hroom]
  exact ⟨a, fun _ => rfl, h⟩

theorem Ends.full (hroom : size < used K.length) (h : ∃ n, ∀ k, x k = .error (.alloc n)) : Ends size K x P := by
  rwa [Ends, if_neg hroom.not_ge]

theorem Ends.bind {f : α → ℕ → Except Panic β} (h : Ends size K x P) (hlen : K.length ≤ K'.length)
    (hf : ∀ a, P a → Ends size K' (f a) Q) : Ends size K' (fun k => x k >>= fun a => f a k) Q := by
  by_cases hroom : used K.length ≤ size
  · rw [Ends, if_pos hroom] at h
    obtain ⟨a, ha, hP⟩ := h
    simp only [ha]
    exact hf a hP
  rw [Ends, if_neg hroom] at h
  obtain ⟨n, hn⟩ := h
  refine .full ?_ ⟨n, fun k => by rw [hn]; rfl⟩
  simp only [used] at hroom ⊢
  omega

end

/-- The second loop of `_ldlinkobj` adds the names up to the first known one, if there is room for them. -/
theorem Holds.linkNeeded (o : Object) (l : List Dyn) (h : Holds base size s K) :
    Ends size (K ++ fresh K (neededOf o l)) (fun _ => Ld.linkNeeded o l (node base K.length) s) fun r =>
      r.1 = node base (K ++ fresh K (neededOf o l)).length ∧ Holds base size r.2 (K ++ fresh K (neededOf o l)) := by
  induction l generalizing s K with
  | nil =>
    rw [neededOf, fresh, append_nil]
    exact .done h.room ⟨rfl, h⟩
  | cons d l ih =>
    cases hd : d.dTag with
    | null =>
      simp only [neededOf, hd, fresh, append_nil, Ld.linkNeeded]
      exact .done h.room ⟨rfl, h⟩
    | rpath | other =>
      simp only [neededOf, hd, Ld.linkNeeded]
      exact ih h
    | needed =>
      have hneeded : neededOf o (d :: l) = o.dynstr d.dVal :: neededOf o l := by simp only [neededOf, hd]
      rw [hneeded, fresh]
      by_cases hk : o.dynstr d.dVal ∈ K
      · simp only [if_pos hk, append_nil, Ld.linkNeeded, hd, (h.known _).2 hk, if_true]
        exact .done h.room ⟨rfl, h⟩
      have hchk : ldchkname s (o.dynstr d.dVal) = false := by
        rw [← Bool.not_eq_true, h.known]
        exact hk
      rw [if_neg hk, append_cons]
      have hpos := h.pos
      have hamount := h.amount
      by_cases hroom : used (K.length + 1) ≤ size
      · have hfit : s.pos + 76 ≤ s.amount := by
          simp only [used] at hroom hpos
          omega
        have hlen : (K ++ [o.dynstr d.dVal]).length = K.length + 1 := by simp
        have hih := ih (h.appended o (o.dynstr d.dVal) hroom)
        rw [hlen] at hih
        simpa only [linkNeeded_append hd hchk hfit, h.addr] using hih
      · simp only [used] at hroom hpos
        obtain ⟨n, hn⟩ := linkNeeded_full (l := l) hd hchk (by omega) (node base K.length)
        refine .full ?_ ⟨n, fun _ => hn⟩
        simp only [used, length_append, length_singleton]
        omega

/-- The tail pointer points to the last module. -/
def Ready (base size : ℕ) (s : State) (K : List String) : Prop := Holds base size s K ∧ s.ldlast = node base K.length

def linkAt (m curmod : ℕ) (o : Object) (s : State) : Except Panic (ℕ × State) := do
  let (curmod, s) ← linkNeeded o o.dyn curmod s
  return (m, { s with ldlast := curmod })

theorem Holds.linkAt (h : Holds base size s K) (m : ℕ) (o : Object) :
    Ends size (K ++ fresh K o.needed) (fun _ => Ld.linkAt m (node base K.length) o s) fun r =>
      r.1 = m ∧ Ready base size r.2 (K ++ fresh K o.needed) :=
  (h.linkNeeded o o.dyn).bind le_rfl fun _ ⟨hcur, hh⟩ =>
    .done hh.room ⟨rfl, ⟨hh.start, hh.amount, hh.pos, hh.room, hh.names, hh.first, hh.exe, hh.name, hh.next⟩, hcur⟩

theorem ldlinkobj_some (m : ℕ) (o : Object) (s : State) : ldlinkobj (some m) o s = linkAt m s.ldlast o s :=
  rfl

def exeState (base size : ℕ) : State :=
  { ({ ldainit base size 1 with pos := 60 } : State).setMod base (fun _ => ⟨none, none, none, base⟩) with ldfirst := base }

theorem holds_exeState (h : 60 ≤ size) : Holds base size (exeState base size) [] := by
  refine ⟨rfl, Nat.mul_one size, rfl, h, fun _ => Iff.rfl, rfl, ?_, fun i hi => ?_, fun i hi => ?_⟩
  · simp [exeState, State.setMod]
  · cases hi
  obtain rfl := Nat.le_zero.1 hi
  simp [exeState, State.setMod, node]

theorem ldlinkobj_none (h : 60 ≤ size) (exe : Object) :
    ldlinkobj none exe (ldainit base size 1) = linkAt base base exe (exeState base size) := by
  have halloc : ldalloc (ldainit base size 1) sizeofModule = .ok (base, { ldainit base size 1 with pos := 60 }) := by
    rw [ldalloc_eq (by decide), if_neg]
    · rfl
    show ¬ size * 1 < 0 + 60
    omega
  rw [ldlinkobj]
  rw [halloc]
  rfl

/-- The executable is the first module. -/
theorem ldlinkobj_exe (base size : ℕ) (exe : Object) :
    Ends size (fresh [] exe.needed) (fun _ => ldlinkobj none exe (ldainit base size 1)) fun r =>
      r.1 = base ∧ Ready base size r.2 (fresh [] exe.needed) := by
  by_cases h60 : 60 ≤ size
  · simp only [ldlinkobj_none h60]
    exact (holds_exeState h60).linkAt base exe
  have hfull : ldalloc (ldainit base size 1) sizeofModule = .error (.alloc 60) := by
    refine if_pos ?_
    show size * 1 < 0 + 60
    omega
  refine .full (by rw [used]; omega) ⟨60, fun _ => ?_⟩
  rw [ldlinkobj]
  rw [hfull]
  rfl

/-! ### The loop -/

/-- The libraries found after `i` modules have been loaded. -/
def loaded (exe : Object) (lib : String → Object) (i : ℕ) : List String := found (fun m => (lib m).needed) exe.needed i

section
variable {U : Finset String} (hexe : ∀ n ∈ exe.needed, n ∈ U) (hlib : ∀ m ∈ U, ∀ n ∈ (lib m).needed, n ∈ U)
  (hopen : ∀ m ∈ U, ∀ rp, opens m rp = some (lib m))
include hexe hlib

theorem loaded_end (h : (loaded exe lib i).length ≤ i) : loaded exe lib U.card = loaded exe lib i := by
  rcases le_total i U.card with hle | hle
  · exact found_stop h hle
  · exact (found_stop (found_length_le hexe hlib U.card) hle).symm

/-- Every module has been loaded. -/
theorem loadLoop_done (h : Ready base size s (loaded exe lib i)) (hi : i = (loaded exe lib i).length) (r : ℕ) :
    Ends size (loaded exe lib U.card) (fun k => loadLoop opens (r + k) (s.mods (node base i)).next s)
      (Holds base size · (loaded exe lib U.card)) := by
  simp only [h.1.next i hi.le, if_neg hi.not_lt, loaded_end hexe hlib hi.ge, loadLoop]
  exact .done h.1.room h.1

include hopen

theorem ldloadobj_ends (h : Ready base size s (loaded exe lib i)) (hlt : i < (loaded exe lib i).length) :
    Ends size (loaded exe lib (i + 1)) (fun _ => ldloadobj opens (node base (i + 1)) s)
      (Ready base size · (loaded exe lib (i + 1))) := by
  obtain ⟨a, ha⟩ : ∃ a, (loaded exe lib i)[i]? = some a := ⟨_, List.getElem?_eq_getElem hlt⟩
  have hsucc : loaded exe lib (i + 1) = loaded exe lib i ++ fresh (loaded exe lib i) (lib a).needed := found_succ ha
  have hname : (s.mods (node base (i + 1))).name = some a := (h.1.name i hlt).trans ha
  have hU : a ∈ U := reach_mem hexe hlib (found_reach i a (mem_of_getElem? ha))
  have hlink := h.1.linkAt (node base (i + 1)) (lib a)
  rw [← hsucc, ← h.2] at hlink
  simp only [ldloadobj, hname, hopen a hU, ldlinkobj_some]
  exact hlink.bind le_rfl fun _ hr => .done hr.2.1.room hr.2

/-- The loop ends, with all that is found in the chain, or for want of memory. -/
theorem loadLoop_spec (r i : ℕ) (hr : U.card - i = r) (h : Ready base size s (loaded exe lib i))
    (hi : i ≤ (loaded exe lib i).length) : Ends size (loaded exe lib U.card)
      (fun k => loadLoop opens (r + k) (s.mods (node base i)).next s) (Holds base size · (loaded exe lib U.card)) := by
  induction r generalizing i s with
  | zero =>
    have hle : (loaded exe lib i).length ≤ U.card := found_length_le hexe hlib i
    exact loadLoop_done hexe hlib h (by omega) 0
  | succ r ih =>
    rcases hi.eq_or_lt with hi | hlt
    · exact loadLoop_done hexe hlib h hi (r + 1)
    have hnext : (s.mods (node base i)).next = some (node base (i + 1)) := by rw [h.1.next i hi, if_pos hlt]
    have hlen : (loaded exe lib i).length ≤ (loaded exe lib (i + 1)).length := (found_mono_succ i).length_le
    simp only [hnext, Nat.add_right_comm r 1, loadLoop]
    exact (ldloadobj_ends hexe hlib hopen h hlt).bind (List.IsPrefix.length_le (found_mono (by omega))) fun s1 h1 =>
      ih (i + 1) (by omega) h1 (by omega)

theorem ldstart_spec (base size : ℕ) : Ends size (loaded exe lib U.card)
    (fun k => ldstart opens base size exe (U.card + k)) (Holds base size · (loaded exe lib U.card)) := by
  refine (ldlinkobj_exe base size exe).bind (List.IsPrefix.length_le (found_mono (Nat.zero_le _))) ?_
  rintro ⟨m, s⟩ ⟨-, hs⟩
  have hfirst : s.ldfirst = base := hs.1.first
  simp only [hfirst]
  exact loadLoop_spec hexe hlib hopen U.card 0 (Nat.sub_zero _) hs (Nat.zero_le _)

/-- `_ldstart` with enough fuel. -/
theorem ldstart_cases (base size : ℕ) :
    (∃ s, (∀ k, U.card ≤ k → ldstart opens base size exe k = .ok s) ∧ Holds base size s (loaded exe lib U.card)) ∨
    size < used (loaded exe lib U.card).length ∧
      ∃ n, ∀ k, U.card ≤ k → ldstart opens base size exe k = .error (.alloc n) := by
  have hspec := ldstart_spec hexe hlib hopen base size
  have hfuel : ∀ {k}, U.card ≤ k → U.card + (k - U.card) = k := Nat.add_sub_of_le
  unfold Ends at hspec
  split_ifs at hspec with hroom
  · obtain ⟨s, hs, hh⟩ := hspec
    exact .inl ⟨s, fun k hk => hfuel hk ▸ hs _, hh⟩
  · obtain ⟨n, hn⟩ := hspec
    exact .inr ⟨not_le.1 hroom, n, fun k hk => hfuel hk ▸ hn _⟩

end

/-! ### The chain -/

theorem Chain.unique {mods : ℕ → Module} {p : Option ℕ} {ms ms' : List ℕ} (h : Chain mods p ms)
    (h' : Chain mods p ms') : ms = ms' := by
  induction h generalizing ms' with
  | nil =>
    cases h'
    rfl
  | cons _ ih =>
    cases h' with
    | cons h2 => rw [ih h2]

theorem Holds.chain_from (h : Holds base size s K) (r i : ℕ) (hi : i + r = K.length) :
    Chain s.mods (s.mods (node base i)).next ((List.range' i r).map fun j => node base (j + 1)) := by
  induction r generalizing i with
  | zero =>
    rw [h.next i (by omega), if_neg (by omega)]
    exact .nil
  | succ r ih =>
    rw [h.next i (by omega), if_pos (by omega)]
    exact .cons (ih (i + 1) (by omega))

def libs (base : ℕ) (K : List String) : List ℕ := (List.range' 0 K.length).map fun j => node base (j + 1)

theorem Holds.chain (h : Holds base size s K) : Chain s.mods (some s.ldfirst) (s.ldfirst :: libs base K) := by
  rw [h.first]
  exact .cons (h.chain_from K.length 0 (Nat.zero_add _))

theorem Holds.libs_names (h : Holds base size s K) : (libs base K).map (fun m => (s.mods m).name) = K.map some := by
  refine ext_getElem (by simp [libs]) fun i h1 h2 => ?_
  have hi : i < K.length := by simpa using h2
  simp [libs, h.name i hi]

/-- The chain is what the linker should load exactly if the names in it are those that can be reached. -/
theorem Holds.closure_iff (h : Holds base size s K) (hK : K.Nodup) :
    Closure exe lib s ↔ ∀ n, n ∈ K ↔ Reach (fun m => (lib m).needed) exe.needed n := by
  constructor
  · rintro ⟨ms, ns, hchain, -, hnames, -, hall⟩
    obtain rfl : ms = libs base K := (List.cons.inj (hchain.unique h.chain)).2
    have hns : ns = K := map_injective_iff.2 (Option.some_injective _) (hnames.symm.trans h.libs_names)
    rwa [hns] at hall
  · exact fun hall => ⟨libs base K, K, h.chain, h.first ▸ h.exe, h.libs_names, hK, hall⟩

/-- The loading loop ends. It ends with the executable and one module for each library that can be reached
exactly if every name behind a known one in a list of needed libraries is the name of a library that is loaded,
and the page has room for all modules and names. -/
theorem link_closure_iff (opens : String → Option String → Option Object) (lib : String → Object) (exe : Object)
    (U : Finset String) (base pagesize : ℕ) (hexe : ∀ n ∈ exe.needed, n ∈ U)
    (hlib : ∀ m ∈ U, ∀ n ∈ (lib m).needed, n ∈ U) (hopen : ∀ m ∈ U, ∀ rp, opens m rp = some (lib m)) :
    (∀ k, U.card ≤ k → ldstart opens base pagesize exe k ≠ .error .endless) ∧
    ((∃ s, (∀ k, U.card ≤ k → ldstart opens base pagesize exe k = .ok s) ∧ Closure exe lib s) ↔
      (∀ n, Dropped (fun m => (lib m).needed) exe.needed n → n ∈ loaded exe lib U.card) ∧
        60 + 76 * (loaded exe lib U.card).length ≤ pagesize) := by
  have hend : (loaded exe lib U.card).length ≤ U.card := found_length_le hexe hlib U.card
  have hreach := found_iff_reach hend
  rcases ldstart_cases hexe hlib hopen base pagesize with ⟨s, hs, hh⟩ | ⟨hroom, n, hn⟩
  · have hcl : Closure exe lib s ↔ _ := hh.closure_iff (found_nodup U.card)
    refine ⟨fun k hk he => ?_, ?_⟩
    · rw [hs k hk] at he
      cases he
    constructor
    · rintro ⟨s', hs', hc⟩
      obtain rfl := Except.ok.inj ((hs _ le_rfl).symm.trans (hs' _ le_rfl))
      exact ⟨hreach.1 (hcl.1 hc), hh.room⟩
    · rintro ⟨hd, -⟩
      exact ⟨s, hs, hcl.2 (hreach.2 hd)⟩
  · refine ⟨fun k hk he => ?_, iff_of_false ?_ fun h => hroom.not_ge h.2⟩
    · rw [hn k hk] at he
      cases he
    · rintro ⟨s, hs, -⟩
      cases (hn _ le_rfl).symm.trans (hs _ le_rfl)

/-- An object that needs the libraries `ns`. -/
def needing (ns : List String) : Object where
  dyn := (List.range ns.length).map (⟨.needed, ·⟩) ++ [⟨.null, 0⟩]
  dynstr i := ns.getD i ""

/-- Two libraries that need each other. -/
def ringLib (m : String) : Object := needing (if m = "libA" then ["libB"] else ["libA"])

theorem link_closure_ring : ∃ s, (∀ k, 2 ≤ k → ldstart (fun m _ => some (ringLib m)) 8192 4096 (needing ["libA"]) k = .ok s) ∧
    Closure (needing ["libA"]) ringLib s := by
  have hone : ∀ (K : List String) (a : String), dropped K [a] = [] := by simp [dropped]
  have hdrop : ∀ n, Dropped (fun m => (ringLib m).needed) (needing ["libA"]).needed n →
      n ∈ loaded (needing ["libA"]) ringLib 2 := by
    intro n hn
    cases hn with
    | start h =>
      have h' : n ∈ dropped [] ["libA"] := h
      cases h'
    | @step i a _ _ h =>
      have hlist : ∃ b, (ringLib a).needed = [b] := by
        unfold ringLib
        split_ifs
        · exact ⟨"libB", rfl⟩
        · exact ⟨"libA", rfl⟩
      obtain ⟨b, hb⟩ := hlist
      rw [hb, hone] at h
      cases h
  exact (link_closure_iff (fun m _ => some (ringLib m)) ringLib (needing ["libA"]) {"libA", "libB"} 8192 4096 (by decide)
    (by decide) (fun _ _ _ => rfl)).2.2 ⟨hdrop, by decide⟩

/-- The executable needs A and B, and A needs B and C. -/
def dropLib (m : String) : Object := needing (if m = "libA" then ["libB", "libC"] else [])

/-- Library C is behind B in the list of A, and B is known, so C is not loaded. -/
theorem link_drops_library : ∃ s, (∀ k, 3 ≤ k →
      ldstart (fun m _ => some (dropLib m)) 8192 4096 (needing ["libA", "libB"]) k = .ok s) ∧
    (∃ ms, Chain s.mods (some s.ldfirst) (s.ldfirst :: ms) ∧ ms.map (fun m => (s.mods m).name) = [some "libA", some "libB"]) ∧
    Reach (fun m => (dropLib m).needed) (needing ["libA", "libB"]).needed "libC" ∧
    ¬ Closure (needing ["libA", "libB"]) dropLib s := by
  have hloaded : loaded (needing ["libA", "libB"]) dropLib 3 = ["libA", "libB"] := by decide
  have hfin : ∀ n ∈ (needing ["libA", "libB"]).needed, n ∈ ({"libA", "libB", "libC"} : Finset String) := by decide
  have hopen : ∀ m ∈ ({"libA", "libB", "libC"} : Finset String), ∀ rp : Option String,
      (fun m _ => some (dropLib m)) m rp = some (dropLib m) := fun _ _ _ => rfl
  obtain ⟨s, hs, hh⟩ := (ldstart_cases hfin (by decide) hopen 8192 4096).resolve_right fun h => absurd h.1 (by decide)
  change Holds _ _ s (loaded _ dropLib 3) at hh
  have hreach : Reach (fun m => (dropLib m).needed) (needing ["libA", "libB"]).needed "libC" :=
    .step (.start (by decide : "libA" ∈ _)) (by decide)
  refine ⟨s, hs, ⟨_, hh.chain, hh.libs_names⟩, hreach, fun hc => ?_⟩
  have hmem := ((hh.closure_iff (by decide)).1 hc "libC").2 hreach
  revert hmem
  decide

end Weenix.Ld
