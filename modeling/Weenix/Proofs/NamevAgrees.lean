import Weenix.Proofs.VfsBalance

/-! Path resolution against a reference resolver, which goes through the components of the path one
by one. -/

namespace Weenix.Vfs

open List

/-! ### Components -/

section Strings

def components (path : CStr) : List CStr := (path.splitOn slash).filter (· ≠ [])

theorem splitOn_slash (s : CStr) : (slash :: s).splitOn slash = [] :: s.splitOn slash := by
  simp [splitOn_cons_eq_if_modifyHead]

theorem splitOn_cons {c : UInt8} (hc : c ≠ slash) (s : CStr) :
    (c :: s).splitOn slash = (s.splitOn slash).modifyHead (c :: ·) := by
  simp [splitOn_cons_eq_if_modifyHead, hc]

theorem splitOn_plain {s : CStr} (hs : slash ∉ s) : s.splitOn slash = [s] := by
  induction s with
  | nil => rfl
  | cons c t ih =>
    rw [mem_cons, not_or] at hs
    rw [splitOn_cons (Ne.symm hs.1), ih hs.2, modifyHead_cons]

theorem components_slash (s : CStr) : components (slash :: s) = components s := by
  rw [components, splitOn_slash, filter_cons_of_neg (by simp), components]

theorem splitOn_head {s : CStr} (hs : s ≠ []) (hhead : s.head? ≠ some slash) :
    ∃ q qs, q ≠ [] ∧ s.splitOn slash = q :: qs := by
  cases s with
  | nil => exact absurd rfl hs
  | cons c t =>
    have hc : c ≠ slash := fun h => hhead (by simp [h])
    obtain ⟨q, qs, hq⟩ := exists_cons_of_ne_nil (splitOn_ne_nil slash t)
    exact ⟨c :: q, qs, by simp, by rw [splitOn_cons hc, hq, modifyHead_cons]⟩

/-- Compressing leaves the components, each between two slashes. -/
theorem splitOn_compress {s : CStr} (hs : s ≠ []) (hlast : s.getLast? ≠ some slash) : (compress s).splitOn slash =
    if s.head? = some slash then [] :: components s else components s := by
  induction s with
  | nil => exact absurd rfl hs
  | cons c t ih =>
    by_cases ht : t = []
    · subst ht
      have hc : c ≠ slash := fun h => hlast (by simp [h])
      have hplain : [c].splitOn slash = [[c]] := splitOn_plain (by simpa using Ne.symm hc)
      simp [compress, components, hc, hplain]
    have ih := ih ht (by rwa [List.getLast?_cons_of_ne_nil ht] at hlast)
    rw [compress, List.head?_cons]
    by_cases hc : c = slash
    · subst hc
      rw [if_pos rfl, components_slash]
      by_cases hhead : t.head? = some slash
      · rw [if_pos ⟨rfl, hhead⟩, ih, if_pos hhead]
      · rw [if_neg (fun h => hhead h.2), splitOn_slash, ih, if_neg hhead]
    rw [if_neg (fun h => hc h.1), if_neg (by simpa using hc), splitOn_cons hc, ih]
    unfold components
    rw [splitOn_cons hc]
    by_cases hhead : t.head? = some slash
    · obtain ⟨u, rfl⟩ : ∃ u, t = slash :: u := ⟨_, eq_cons_of_mem_head? hhead⟩
      rw [if_pos hhead, splitOn_slash]
      simp
    · obtain ⟨q, qs, hq, hsplit⟩ := splitOn_head ht hhead
      rw [if_neg hhead, hsplit]
      simp [hq]

theorem head_compress (s : CStr) : (compress s).head? = s.head? := by
  induction s with
  | nil => rfl
  | cons c t ih =>
    rw [compress]
    split_ifs with h
    · rw [ih, h.2, h.1]
      rfl
    · rfl

/-- The components between the slashes of a path that begins with one and does not end with one. -/
theorem tail_compress {s : CStr} (hhead : s.head? = some slash) (hlast : s.getLast? ≠ some slash) :
    (compress s).tail.splitOn slash = components s := by
  have hs : s ≠ [] := by
    rintro rfl
    cases hhead
  have hsplit := splitOn_compress hs hlast
  rw [if_pos hhead] at hsplit
  have hc := head_compress s
  rw [hhead] at hc
  obtain ⟨u, hu⟩ : ∃ u, compress s = slash :: u := by
    cases hcs : compress s with
    | nil => rw [hcs] at hc; cases hc
    | cons d u => exact ⟨u, by rw [hcs] at hc; simpa using hc⟩
  rw [hu, splitOn_slash] at hsplit
  rw [hu, tail_cons]
  exact (List.cons.inj hsplit).2

theorem splitOn_append (s t : CStr) : (s ++ slash :: t).splitOn slash = s.splitOn slash ++ t.splitOn slash := by
  induction s with
  | nil => rw [nil_append, splitOn_slash]; rfl
  | cons c s ih =>
    rw [cons_append]
    by_cases hc : c = slash
    · subst hc
      rw [splitOn_slash, splitOn_slash, ih, cons_append]
    obtain ⟨q, qs, hq⟩ := exists_cons_of_ne_nil (splitOn_ne_nil slash s)
    rw [splitOn_cons hc, splitOn_cons hc, ih, hq, cons_append, modifyHead_cons, modifyHead_cons,
      cons_append]

theorem components_append {s t : CStr} (ht : slash ∉ t) (hne : t ≠ []) :
    components (s ++ slash :: t) = components s ++ [t] := by
  unfold components
  rw [splitOn_append, filter_append, splitOn_plain ht, filter_cons_of_pos (by simpa using hne)]
  rfl

def headPart (path : CStr) : CStr := (path.reverse.dropWhile (· ≠ slash)).reverse

theorem headPart_append (path : CStr) : headPart path ++ baseName path = path := by
  unfold headPart baseName
  rw [← reverse_append, takeWhile_append_dropWhile, reverse_reverse]

theorem slash_notMem_baseName (path : CStr) : slash ∉ baseName path := by
  intro h
  have := all_eq_true.1 all_takeWhile _ (mem_reverse.1 h)
  simp at this

/-- The part before the last component is empty or ends with a slash. -/
theorem headPart_cases (path : CStr) : headPart path = [] ∨ ∃ s, headPart path = s ++ [slash] := by
  unfold headPart
  cases h : path.reverse.dropWhile (· ≠ slash) with
  | nil => exact .inl rfl
  | cons c t =>
    have hc := head_dropWhile_not (· ≠ slash) (l := path.reverse) (by rw [h]; simp)
    simp only [h, head_cons] at hc
    exact .inr ⟨t.reverse, by simp at hc; rw [reverse_cons, hc]⟩

/-- The path is its last component, or what precedes the component, a slash, and the component. -/
theorem baseName_cases (path : CStr) :
    slash ∉ path ∧ baseName path = path ∨ ∃ s, path = s ++ slash :: baseName path ∧ headPart path = s ++ [slash] := by
  have happ := headPart_append path
  rcases headPart_cases path with h | ⟨s, h⟩
  · rw [h, nil_append] at happ
    exact .inl ⟨happ ▸ slash_notMem_baseName path, happ⟩
  rw [h, append_assoc] at happ
  exact .inr ⟨s, happ.symm, h⟩

theorem baseName_append {s t : CStr} (ht : slash ∉ t) : baseName (s ++ slash :: t) = t := by
  unfold baseName
  rw [reverse_append, reverse_cons, append_assoc]
  rw [takeWhile_append_of_pos (by
    intro a ha
    rw [mem_reverse] at ha
    simp only [decide_eq_true_eq]
    rintro rfl
    exact ht ha)]
  simp

end Strings

/-! ### The reference resolver -/

section Reference

variable {fs fs' : Fs} {cwd : VPtr} {path : CStr} {d : ℕ}

def startIno (cwd : VPtr) (path : CStr) : ℕ := if path.head? = some slash then rootVn.vno else cwd.vno

def Fs.resolve (fs : Fs) (cwd : VPtr) (path : CStr) : Except Errno ℕ := fs.follow (startIno cwd path) (components path)

def Fs.resolveParent (fs : Fs) (cwd : VPtr) (path : CStr) : Except Errno ℕ :=
  fs.follow (startIno cwd path) (components path).dropLast

/-- A call returns what is found: its error, or a vnode in core. -/
def Matches (x : Except Errno ℕ) (r : Except Failure VPtr) (fs' : Fs) : Prop :=
  match x with
  | .error e => ∃ f, r = .error f ∧ f.errno = e
  | .ok n => ∃ p, r = .ok p ∧ p.vno = n ∧ fs'.Points p

/-- The two functions agree with the reference. -/
structure PathAgrees (fs : Fs) (cwd : VPtr) (path : CStr) : Prop where
  whole : ∃ r fs', openNamev cwd path 0 false fs = .ok r fs' ∧ Matches (fs.resolve cwd path) r fs'
  parent : ∃ r fs', dirNamev cwd path fs = .ok r fs' ∧ Matches (fs.resolveParent cwd path) r fs'
  name : ∀ c ∈ (components path).getLast?, baseName path = c

theorem Fs.Walks.matches {x : Except Errno ℕ} {r : Except Failure VPtr}
    (hw : fs.Walks x (r.mapError Failure.errno) fs') : Matches x r fs' := by
  cases x with
  | error e =>
    cases r with
    | error f => exact ⟨f, rfl, by simpa [Except.mapError] using hw.1⟩
    | ok p => cases hw.1
  | ok n =>
    obtain ⟨hl, hr, rfl⟩ := hw
    cases r with
    | error f => cases hr
    | ok p =>
      obtain rfl : p = fs.ptr n := by simpa [Except.mapError] using hr
      exact ⟨_, rfl, Fs.ptr_vno, Fs.points_ptr hl⟩

theorem Reaches.matches {res : FsM (Except Failure VPtr)} {safe : Prop} {x : Except Errno ℕ} (hr : Reaches res fs safe x)
    {r : Except Failure VPtr} (hok : res fs = .ok r fs') : Matches x r fs' := by
  rcases hr.cases hok with ⟨-, hw⟩ | ⟨-, n, -, hw⟩
  · exact hw.matches
  · exact hw.matches

end Reference

/-! ### Regular paths -/

/-- A last component that is there, one slash before it, and no leading dot but in `./` and `../`. -/
def Regular (path : CStr) : Prop :=
  baseName path ≠ [] ∧ ¬ [slash, slash] <:+ headPart path ∧
    (path.head? ≠ some dot ∨ path.take 2 = [dot, slash] ∨ path.take 3 = [dot, dot, slash])

section Regular

variable {fs : Fs} {cwd : VPtr} {path f p : CStr}

theorem baseName_after (hf : slash ∈ f) : baseName (p ++ f) = baseName f := by
  obtain ⟨s, hs, -⟩ := (baseName_cases f).resolve_left (·.1 hf)
  conv_lhs => rw [hs, ← append_assoc]
  exact baseName_append (slash_notMem_baseName f)

theorem headPart_after (hf : slash ∈ f) : headPart (p ++ f) = p ++ headPart f := by
  have happ := headPart_append (p ++ f)
  rw [baseName_after hf] at happ
  have happ' : (p ++ headPart f) ++ baseName f = p ++ f := by rw [append_assoc, headPart_append]
  exact append_cancel_right (happ.trans happ'.symm)

theorem baseName_slash (path : CStr) : baseName (slash :: path) = baseName path := by
  rcases baseName_cases path with ⟨hplain, h⟩ | ⟨s, h, -⟩
  · rw [h]
    exact baseName_append (s := []) hplain
  · exact baseName_after (p := [slash]) (by rw [h]; simp)

theorem headPart_slash (path : CStr) : headPart (slash :: path) = slash :: headPart path := by
  have happ := headPart_append (slash :: path)
  rw [baseName_slash] at happ
  have happ' : (slash :: headPart path) ++ baseName path = slash :: path := by rw [cons_append, headPart_append]
  exact append_cancel_right (happ.trans happ'.symm)

theorem dupPath_eq {s t : CStr} (hlen : (s ++ slash :: t).length < 2 ^ 32) : dupPath (s ++ slash :: t) t.length = s := by
  unfold dupPath
  have hidx : ((s ++ slash :: t).length + 2 ^ 32 - t.length - 1) % 2 ^ 32 = s.length := by
    rw [length_append, length_cons] at hlen ⊢
    rw [show s.length + (t.length + 1) + 2 ^ 32 - t.length - 1 = s.length + 2 ^ 32 by omega, Nat.add_mod_right]
    exact Nat.mod_eq_of_lt (by omega)
  rw [hidx, take_left]

/-- The pieces that are looked up are the components of `f_name` but the last. -/
theorem pieces_eq (hhead : f.head? = some slash) (hbase : baseName f ≠ []) (hrun : ¬ [slash, slash] <:+ headPart f)
    (hlen : f.length < 2 ^ 32) : (if dupPath f (baseName f).length = [] then []
      else (compress (dupPath f (baseName f).length)).tail.splitOn slash) = (components f).dropLast ∧
      components f = (components f).dropLast ++ [baseName f] := by
  obtain ⟨s, hs, hpart⟩ := (baseName_cases f).resolve_left (·.1 (mem_of_mem_head? hhead))
  have hcomp : components f = components s ++ [baseName f] := by
    conv_lhs => rw [hs]
    exact components_append (slash_notMem_baseName f) hbase
  have hdup : dupPath f (baseName f).length = s := by
    rw [hs] at hlen
    conv_lhs => rw [hs, baseName_append (slash_notMem_baseName f)]
    exact dupPath_eq hlen
  rw [hdup, hcomp, dropLast_concat]
  refine ⟨?_, rfl⟩
  split_ifs with hnil
  · subst hnil
    rfl
  refine tail_compress ?_ ?_
  · rw [hs, List.head?_append_of_ne_nil _ hnil] at hhead
    exact hhead
  intro hlast
  obtain ⟨u, rfl⟩ := List.getLast?_eq_some_iff.1 hlast
  exact hrun ⟨u, by rw [hpart, append_assoc]; rfl⟩

/-- How a regular path begins, and what is made of it. -/
inductive Form (path : CStr) : Prop
  | absolute (hhead : path.head? = some slash) (ho : origin path = .root) (hf : fileName path = path)
  | relative (hhead : path.head? ≠ some slash) (ho : origin path = .cwd) (hf : fileName path = slash :: path)
  | here (hpath : path = dot :: fileName path) (hhead : (fileName path).head? = some slash) (ho : origin path = .cwd)
  | up (hpath : path = dot :: dot :: fileName path) (hhead : (fileName path).head? = some slash) (ho : origin path = .up)

theorem Regular.form (hr : Regular path) : Form path := by
  obtain ⟨hbase, -, hstart⟩ := hr
  by_cases hslash : path.head? = some slash
  · obtain ⟨u, rfl⟩ : ∃ u, path = slash :: u := ⟨_, eq_cons_of_mem_head? hslash⟩
    have hfinal : finalPath (slash :: u) = slash :: u := by simp [finalPath]
    have ho : origin (slash :: u) = .root := by simp [origin, hfinal, show slash ≠ dot by decide]
    exact .absolute hslash ho (by rw [fileName, ho, hfinal])
  by_cases hdot : path.head? = some dot
  · have hfinal : finalPath path = path := by simp [finalPath, hdot]
    rcases hstart with h | h | h
    · exact absurd hdot h
    · have ho : origin path = .cwd := by rw [origin, hfinal, if_pos h]
      have hname : fileName path = path.drop 1 := by rw [fileName, ho, hfinal]
      obtain ⟨u, rfl⟩ : ∃ u, path = dot :: slash :: u :=
        ⟨path.drop 2, (take_append_drop 2 path).symm.trans (by rw [h]; rfl)⟩
      exact .here (by rw [hname]; rfl) (by rw [hname]; rfl) ho
    obtain ⟨u, rfl⟩ : ∃ u, path = dot :: dot :: slash :: u :=
      ⟨path.drop 3, (take_append_drop 3 path).symm.trans (by rw [h]; rfl)⟩
    have ho : origin (dot :: dot :: slash :: u) = .up := by
      simp [origin, hfinal, show dot ≠ slash by decide]
    have hname : fileName (dot :: dot :: slash :: u) = slash :: u := by rw [fileName, ho, hfinal]; rfl
    exact .up (by rw [hname]) (by rw [hname]; rfl) ho
  · have hfinal : finalPath path = dot :: slash :: path := by simp [finalPath, hslash, hdot]
    have ho : origin path = .cwd := by simp [origin, hfinal]
    exact .relative hslash ho (by rw [fileName, ho, hfinal]; rfl)

theorem Regular.not_dots (hr : Regular path) : ¬ (path = [dot] ∨ path = [dot, dot]) := by
  obtain ⟨-, -, hstart⟩ := hr
  rintro (rfl | rfl)
  · simp at hstart
  · simp [show dot ≠ slash by decide] at hstart

/-- What `Regular` says of the path it says of `f_name`. -/
theorem Regular.file (hr : Regular path) : (fileName path).head? = some slash ∧ baseName (fileName path) = baseName path ∧
    ¬ [slash, slash] <:+ headPart (fileName path) := by
  have hrun := hr.2.1
  cases hr.form with
  | absolute hhead ho hf =>
    rw [hf]
    exact ⟨hhead, rfl, hrun⟩
  | relative hhead ho hf =>
    rw [hf, headPart_slash, baseName_slash]
    refine ⟨rfl, rfl, fun hsuff => ?_⟩
    rcases suffix_cons_iff.1 hsuff with heq | hsuff
    · have hpart : headPart path = [slash] := (List.cons.inj heq).2.symm
      have happ := headPart_append path
      rw [hpart] at happ
      exact hhead (by rw [← happ]; rfl)
    · exact hrun hsuff
  | here hpath hhead ho =>
    have hmem := mem_of_mem_head? hhead
    have hpart : headPart path = [dot] ++ headPart (fileName path) := by
      conv_lhs => rw [hpath]
      exact headPart_after (p := [dot]) hmem
    have hbase : baseName path = baseName (fileName path) := by
      conv_lhs => rw [hpath]
      exact baseName_after (p := [dot]) hmem
    exact ⟨hhead, hbase.symm, fun hsuff => hrun (hpart ▸ hsuff.trans (suffix_append _ _))⟩
  | up hpath hhead ho =>
    have hmem := mem_of_mem_head? hhead
    have hpart : headPart path = [dot, dot] ++ headPart (fileName path) := by
      conv_lhs => rw [hpath]
      exact headPart_after (p := [dot, dot]) hmem
    have hbase : baseName path = baseName (fileName path) := by
      conv_lhs => rw [hpath]
      exact baseName_after (p := [dot, dot]) hmem
    exact ⟨hhead, hbase.symm, fun hsuff => hrun (hpart ▸ hsuff.trans (suffix_append _ _))⟩

theorem Regular.pieces (hr : Regular path) (hlen : path.length ≤ 1024) :
    parentPieces path = (components (fileName path)).dropLast ∧
      components (fileName path) = (components (fileName path)).dropLast ++ [baseName path] := by
  obtain ⟨hhead, hbase, hrun⟩ := hr.file
  have hflen : (fileName path).length < 2 ^ 32 := by
    cases hr.form with
    | absolute _ _ hf => rw [hf]; omega
    | relative _ _ hf => rw [hf, length_cons]; omega
    | here hpath _ _ =>
      have := congrArg List.length hpath
      rw [length_cons] at this
      omega
    | up hpath _ _ =>
      have := congrArg List.length hpath
      rw [length_cons, length_cons] at this
      omega
  obtain ⟨hpieces, hcomp⟩ := pieces_eq hhead (by rw [hbase]; exact hr.1) hrun hflen
  rw [hbase] at hpieces hcomp
  refine ⟨?_, hcomp⟩
  unfold parentPieces
  rw [if_neg hr.not_dots, hpieces]

/-- A component before the first slash. -/
theorem components_first {c : CStr} (hc : slash ∉ c) (hne : c ≠ []) (hhead : f.head? = some slash) :
    components (c ++ f) = c :: components f := by
  obtain ⟨u, rfl⟩ : ∃ u, f = slash :: u := ⟨_, eq_cons_of_mem_head? hhead⟩
  unfold components
  rw [splitOn_append, splitOn_plain hc, splitOn_slash, cons_append, nil_append,
    filter_cons_of_pos (by simpa using hne), filter_cons_of_neg (by simp)]

theorem follow_append (fs : Fs) (d : ℕ) (ps qs : List CStr) : fs.follow d (ps ++ qs) =
    match fs.follow d ps with
    | .error e => .error e
    | .ok n => fs.follow n qs := by
  induction ps generalizing d with
  | nil => rfl
  | cons q ps ih =>
    rw [cons_append, Fs.follow, Fs.follow]
    cases fs.step d q with
    | error e => rfl
    | ok n => exact ih n

/-- Following a path whose first component leads to `n`. -/
theorem follow_cons {d n : ℕ} {c : CStr} (hlen : c.length ≤ nameLen) (hn : fs.entry d c = .ok n) (ps : List CStr) :
    fs.follow d (c :: ps) = fs.follow n ps := by
  rw [Fs.follow, Fs.step, if_neg (by omega), hn]

theorem follow_cons_error {d : ℕ} {c : CStr} {e : Errno} (hlen : c.length ≤ nameLen) (he : fs.entry d c = .error e)
    (ps : List CStr) : fs.follow d (c :: ps) = .error e := by
  rw [Fs.follow, Fs.step, if_neg (by omega), he]

/-- The current directory is in its own `.`. -/
structure Tree (fs : Fs) (here : VPtr) : Prop extends Home fs here where
  self : fs.entry here.vno [dot] = .ok here.vno

section
variable (hr : Regular path) (h : Tree fs cwd) (hlen : path.length ≤ 1024)
  (hbase : (baseName path).length ≤ nameLen)
include hr h hlen hbase

/-- A regular path has its components looked up in order. -/
theorem Regular.parent : fs.parent cwd path = fs.resolveParent cwd path ∧
      components path = (components path).dropLast ++ [baseName path] := by
  obtain ⟨hpieces, hcomp⟩ := hr.pieces hlen
  have hway : ∀ d, fs.way d path = fs.follow d (components (fileName path)).dropLast := by
    intro d
    rw [Fs.way, if_neg (by omega), hpieces]
  have hne : components (fileName path) ≠ [] := by
    rw [hcomp]
    simp
  unfold Fs.parent Fs.resolveParent startIno
  rw [if_neg (by omega)]
  cases hr.form with
  | absolute hhead ho hf =>
    rw [hf] at hcomp hway
    rw [ho, if_pos hhead]
    exact ⟨hway _, hcomp⟩
  | relative hhead ho hf =>
    rw [hf, components_slash] at hcomp hway
    rw [ho, if_neg hhead]
    exact ⟨hway _, hcomp⟩
  | here hpath hhead ho =>
    have hsplit : components path = [dot] :: components (fileName path) := by
      conv_lhs => rw [hpath]
      exact components_first (c := [dot]) (by decide) (by simp) hhead
    have hstart : path.head? ≠ some slash := by
      rw [hpath, List.head?_cons]
      decide
    rw [ho, if_neg hstart, hsplit, dropLast_cons_of_ne_nil hne, cons_append, ← hcomp]
    exact ⟨(hway _).trans (follow_cons (by decide) h.self _).symm, rfl⟩
  | up hpath hhead ho =>
    have hsplit : components path = [dot, dot] :: components (fileName path) := by
      conv_lhs => rw [hpath]
      exact components_first (c := [dot, dot]) (by decide) (by simp) hhead
    have hstart : path.head? ≠ some slash := by
      rw [hpath, List.head?_cons]
      decide
    rw [ho, if_neg hstart, hsplit, dropLast_cons_of_ne_nil hne, cons_append, ← hcomp]
    refine ⟨?_, rfl⟩
    cases hn : fs.entry cwd.vno [dot, dot] with
    | error e => exact (follow_cons_error (by decide) hn _).symm
    | ok n => exact (hway n).trans (follow_cons (by decide) hn _).symm

theorem Regular.source : fs.source cwd path = fs.resolve cwd path := by
  obtain ⟨hparent, hcomp⟩ := hr.parent h hlen hbase
  unfold Fs.source Fs.resolve
  rw [if_neg (by rw [maxPathLen]; omega), if_neg hr.not_dots, hparent, hcomp, follow_append, Fs.resolveParent]
  cases fs.follow (startIno cwd path) (components path).dropLast with
  | error e => rfl
  | ok d =>
    simp only [Fs.follow, Fs.step, if_neg (show ¬ nameLen < (baseName path).length by omega)]
    cases fs.entry d (baseName path) <;> rfl

end

end Regular

/-- In every tree and for every regular path of at most 1024 bytes with a last component that is not too long,
`open_namev` and `dir_namev` agree with the reference in exactly the cases in which the directories on the way are
there and in core. -/
theorem agrees_iff_returns {fs : Fs} {cwd : VPtr} (h : Tree fs cwd) (path : CStr) (hlen : path.length ≤ maxPathLen)
    (hbase : (baseName path).length ≤ nameLen) (hr : Regular path) : PathAgrees fs cwd path ↔ fs.Returns cwd path := by
  have hopen := openNamev_returns h.toHome hlen hr.not_dots false
  obtain ⟨hparent, hlast⟩ := hr.parent h hlen hbase
  constructor
  · rintro ⟨⟨r, fs', hok, -⟩, -⟩
    exact hopen.1 ⟨r, fs', hok⟩
  intro hret
  obtain ⟨r, fs', hok⟩ := hopen.2 hret
  obtain ⟨fs₁, d, hpass, hd, -⟩ := id hret
  have hok1 := (dirNamev_passes h.toHome hd).2 ⟨fs₁, hpass, rfl, rfl⟩
  refine ⟨⟨r, fs', hok, ?_⟩, ⟨_, _, hok1, ?_⟩, fun c hc => ?_⟩
  · rw [← hr.source h hlen hbase]
    exact (openNamev_reaches h.toHome path false).matches hok
  · rw [← hparent]
    exact (dirNamev_reaches h.toHome path).matches hok1
  · rw [hlast, List.getLast?_concat] at hc
    simpa using hc

theorem tree_mounted : Tree mounted rootVn := ⟨home_mounted, rfl⟩

/-- The path `//./..` -/
theorem agrees_dots : PathAgrees mounted rootVn [slash, slash, dot, slash, dot, dot] := by
  have hfound : FoundOk mounted 0 [dot, dot] := by
    intro n hn
    have hentry : mounted.entry 0 [dot, dot] = .ok 0 := rfl
    cases hentry.symm.trans hn
    rfl
  have hway : mounted.SafeWay rootVn.vno [slash, slash, dot, slash, dot, dot] := by
    refine fun _ => ⟨by decide, fun n hn => ?_⟩
    have hstep : mounted.step 0 [dot] = .ok 0 := rfl
    cases hstep.symm.trans hn
    exact ⟨rfl, fun _ _ _ => rfl, trivial⟩
  refine (agrees_iff_returns tree_mounted _ (by decide) (by decide) ⟨by decide, by decide, by decide⟩).2 ?_
  exact ⟨mounted, 0, ⟨by decide, rootVn, ⟨rfl, rfl⟩, hway⟩, rfl, rfl, hfound⟩

/-- A directory on the way that does not exist: instead of `-ENOENT`, `open_namev` panics. -/
theorem missing_directory_panics : Tree mounted rootVn ∧ mounted.resolve rootVn [slash, 97, slash, 98] = .error .enoent ∧
    ∃ fs', openNamev rootVn [slash, 97, slash, 98] 0 false mounted = .error .panic fs' :=
  ⟨tree_mounted, rfl, _, rfl⟩

end Weenix.Vfs
