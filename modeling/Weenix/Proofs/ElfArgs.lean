import Weenix.Lib.Cover
import Weenix.Lib.Exec
import Weenix.Spec.Elf

/-! The arguments of a program as the program finds them. The two functions agree on a layout
without gaps: four words, the three vectors, the strings in order and the program header table;
what is read back through the pointers is what was put in, as long as the sizes do not
overflow and the block does not run over the end of the address space. -/

namespace Weenix.Elf

open Memory Cover Exec List

variable {m m' : Mem} {argv envp l : List CString} {auxv : List Auxv}
  {arglow argsize phtsize a k n vec str : ℕ} {user kmem buf : Mem}

/-! ### Reading -/

/-- The string at `a`, at most `n` bytes of it. -/
def cstring (m : Mem) : ℕ → ℕ → List UInt8
  | 0, _ => []
  | n + 1, a => if m a = 0 then [] else m a :: cstring m n (a + 1)

/-- The strings of a vector up to the null pointer; at most `k` strings of `n` bytes. -/
def stringVec (m : Mem) (n : ℕ) : ℕ → ℕ → List (List UInt8)
  | 0, _ => []
  | k + 1, a => if read32 m a = 0 then [] else cstring m n (read32 m a) :: stringVec m n k (a + 4)

/-- The auxiliary vector up to the entry that ends it. -/
def auxVec (m : Mem) : ℕ → ℕ → List (ℕ × ℕ)
  | 0, _ => []
  | k + 1, a => if read32 m a = AT_NULL.toNat then [] else (read32 m a, read32 m (a + 4)) :: auxVec m k (a + 8)

/-- The strings of a vector with their lengths, as the pointers of the vector say. -/
def stringParts (m : Mem) : ℕ → List CString → List (ℕ × ℕ)
  | _, [] => []
  | a, s :: l => (read32 m a, s.1.length + 1) :: stringParts m (a + 4) l

/-- The program header table, as the entry `AT_PHDR` says. -/
def tableParts (m : Mem) (phtsize : ℕ) : ℕ → List Auxv → List (ℕ × ℕ)
  | _, [] => []
  | a, e :: l => if e.aType = AT_PHDR then (read32 m (a + 4), phtsize) :: tableParts m phtsize (a + 8) l
    else tableParts m phtsize (a + 8) l

/-- All that lies in the block, with addresses and lengths. -/
def parts (m : Mem) (arglow : ℕ) (argv envp : List CString) (auxv : List Auxv) (phtsize : ℕ) : List (ℕ × ℕ) :=
  [(arglow, 16), (read32 m (arglow + 4), 4 * (argv.length + 1)), (read32 m (arglow + 8), 4 * (envp.length + 1)),
    (read32 m (arglow + 12), 8 * (auxv.length + 1))] ++
  (stringParts m (read32 m (arglow + 4)) argv ++ (stringParts m (read32 m (arglow + 8)) envp ++
    tableParts m phtsize (read32 m (arglow + 12)) auxv))

/-- What the program finds at `arglow`. -/
structure Found (m : Mem) (arglow argsize : ℕ) (kmem : Mem) (argv envp : List CString) (auxv : List Auxv)
    (phtsize : ℕ) : Prop where
  argc : read32 m arglow = argv.length
  args : stringVec m argsize argsize (read32 m (arglow + 4)) = argv.map Subtype.val
  env : stringVec m argsize argsize (read32 m (arglow + 8)) = envp.map Subtype.val
  aux : ∃ table, auxVec m argsize (read32 m (arglow + 12)) =
      auxv.map (fun e => (e.aType.toNat, if e.aType = AT_PHDR then table else e.aUn.toNat)) ∧
    ∀ e ∈ auxv, e.aType = AT_PHDR → bytes m table phtsize = bytes kmem e.aUn.toNat phtsize
  inside : ∀ r ∈ parts m arglow argv envp auxv phtsize,
    arglow ≤ r.1 ∧ r.1 < arglow + argsize ∧ r.1 + r.2 ≤ arglow + argsize
  apart : (parts m arglow argv envp auxv phtsize).Pairwise fun r r' => r.1 + r.2 ≤ r'.1 ∨ r'.1 + r'.2 ≤ r.1

/-! ### The size -/

def strLen (l : List CString) : ℕ := (l.map fun s => s.1.length + 1).sum

def tabLen (phtsize : ℕ) (auxv : List Auxv) : ℕ := (auxv.map fun e => if e.aType = AT_PHDR then phtsize else 0).sum

def total (argv envp : List CString) (auxv : List Auxv) (phtsize : ℕ) : ℕ :=
  16 + 4 * (argv.length + 1) + 4 * (envp.length + 1) + 8 * (auxv.length + 1) + strLen argv + strLen envp +
    tabLen phtsize auxv

theorem addStrings_eq (x : ℕ) (l : List CString) (size : ℕ) :
    (addStrings l size + x) % 2 ^ 32 = (size + strLen l + x) % 2 ^ 32 := by
  induction l generalizing size with
  | nil => exact by simp [addStrings, strLen]
  | cons s l ih =>
    rw [addStrings, ih]
    simp only [strLen, map_cons, sum_cons]
    omega

theorem addTables_eq (phtsize x : ℕ) (l : List Auxv) (size : ℕ) :
    (addTables phtsize l size + x) % 2 ^ 32 = (size + tabLen phtsize l + x) % 2 ^ 32 := by
  induction l generalizing size with
  | nil => exact by simp [addTables, tabLen]
  | cons e l ih =>
    rw [addTables, ih]
    simp only [tabLen, map_cons, sum_cons]
    split_ifs
    · omega
    · omega

theorem calcArgsize_eq (argv envp : List CString) (auxv : List Auxv) (phtsize : ℕ) :
    calcArgsize argv envp auxv phtsize =
      (total argv envp auxv phtsize % 2 ^ 32, argv.length, envp.length, auxv.length) := by
  have h1 := addStrings_eq ((argv.length + 1) * 4) argv 0
  have h2 := addStrings_eq ((envp.length + 1) * 4) envp ((addStrings argv 0 + (argv.length + 1) * 4) % 2 ^ 32)
  have h3 := addTables_eq phtsize ((auxv.length + 1) * 8) auxv
    ((addStrings envp ((addStrings argv 0 + (argv.length + 1) * 4) % 2 ^ 32) + (envp.length + 1) * 4) % 2 ^ 32)
  simp only [calcArgsize, total, Prod.mk.injEq, and_true]
  omega

/-! ### Filling the buffer -/

/-- Only `n` bytes at `vec` and `k` bytes at `str` have changed. -/
def Frame (m m' : Mem) (vec n str k : ℕ) : Prop :=
  ∀ b, (b < vec ∨ vec + n ≤ b) → (b < str ∨ str + k ≤ b) → m' b = m b

/-- The strings lie one behind the other from `str` on and the pointers to them from `vec` on; the
buffer will lie at `arglow`. -/
def StringsIn (m : Mem) (arglow : ℕ) : ℕ → ℕ → List CString → Prop
  | _, _, [] => True
  | vec, str, s :: l => read32 m vec = (arglow + str) % 2 ^ 32 ∧ bytes m str (s.1.length + 1) = s.1 ++ [0] ∧
      StringsIn m arglow (vec + 4) (str + (s.1.length + 1)) l

/-- The entries from `vec` on, with the table at the address `table`. -/
def AuxIn (m : Mem) (table : ℕ) : ℕ → List Auxv → Prop
  | _, [] => True
  | vec, e :: l => read32 m vec = e.aType.toNat ∧
      read32 m (vec + 4) = (if e.aType = AT_PHDR then table else e.aUn.toNat) ∧ AuxIn m table (vec + 8) l

theorem strLen_cons (s : CString) (l : List CString) : strLen (s :: l) = s.1.length + 1 + strLen l := by
  simp [strLen]

theorem tabLen_cons (e : Auxv) (l : List Auxv) :
    tabLen phtsize (e :: l) = (if e.aType = AT_PHDR then phtsize else 0) + tabLen phtsize l := by
  simp [tabLen]

theorem tabLen_none (phtsize : ℕ) {l : List Auxv} (h : ∀ e ∈ l, e.aType ≠ AT_PHDR) : tabLen phtsize l = 0 := by
  induction l with
  | nil => rfl
  | cons e l ih =>
    rw [tabLen_cons, if_neg (h e mem_cons_self), ih fun e he => h e (mem_cons_of_mem _ he)]

theorem countP_tail {e : Auxv} {l : List Auxv} (h : (e :: l).countP (·.aType = AT_PHDR) ≤ 1) :
    l.countP (·.aType = AT_PHDR) ≤ 1 :=
  ((sublist_cons_self e l).countP_le).trans h

/-- The only entry `AT_PHDR` is the first. -/
theorem none_in_tail {e : Auxv} {l : List Auxv} (h : (e :: l).countP (·.aType = AT_PHDR) ≤ 1)
    (he : e.aType = AT_PHDR) : ∀ e' ∈ l, e'.aType ≠ AT_PHDR := by
  rw [countP_cons_of_pos (by simpa using he)] at h
  have hzero : l.countP (·.aType = AT_PHDR) = 0 := by omega
  simpa using countP_eq_zero.1 hzero

theorem StringsIn.congr : ∀ (l : List CString) {vec str : ℕ}, StringsIn m arglow vec str l →
    (∀ b, vec ≤ b → b < vec + 4 * l.length → m' b = m b) → (∀ b, str ≤ b → b < str + strLen l → m' b = m b) →
    StringsIn m' arglow vec str l := by
  intro l
  induction l with
  | nil => exact fun _ _ _ => trivial
  | cons s l ih =>
    intro vec str h hv hs
    rw [length_cons] at hv
    rw [strLen_cons] at hs
    refine ⟨?_, ?_, ih h.2.2 ?_ ?_⟩
    · rw [← h.1]
      exact read32_congr fun b h1 h2 => hv b h1 (by omega)
    · rw [← h.2.1]
      exact bytes_congr fun i hi => hs _ (by omega) (by omega)
    · exact fun b h1 h2 => hv b (by omega) (by omega)
    · exact fun b h1 h2 => hs b (by omega) (by omega)

theorem AuxIn.congr {table : ℕ} : ∀ (l : List Auxv) {vec : ℕ}, AuxIn m table vec l →
    (∀ b, vec ≤ b → b < vec + 8 * l.length → m' b = m b) → AuxIn m' table vec l := by
  intro l
  induction l with
  | nil => exact fun _ _ => trivial
  | cons e l ih =>
    intro vec h hv
    rw [length_cons] at hv
    refine ⟨?_, ?_, ih h.2.2 fun b h1 h2 => hv b (by omega) (by omega)⟩
    · rw [← h.1]
      exact read32_congr fun b h1 h2 => hv b h1 (by omega)
    · rw [← h.2.1]
      exact read32_congr fun b h1 h2 => hv b (by omega) (by omega)

theorem put_ok {data : List UInt8} (h : a + data.length ≤ argsize) :
    put argsize m a data = .ok (writeBytes m a data) := if_pos h

theorem putWord_ok (v : ℕ) (h : a + 4 ≤ argsize) : putWord argsize m a v = .ok (write32 m a v) := if_pos h

theorem copyStrings_spec (argsize arglow : ℕ) (l : List CString) (vec str : ℕ) (m : Mem)
    (hvec : vec + 4 * l.length ≤ str) (hstr : str + strLen l ≤ argsize) :
    ∃ m', copyStrings argsize l ⟨vec, str, (arglow + str) % 2 ^ 32⟩ m =
        .ok (⟨vec + 4 * l.length, str + strLen l, (arglow + (str + strLen l)) % 2 ^ 32⟩, m') ∧
      StringsIn m' arglow vec str l ∧ Frame m m' vec (4 * l.length) str (strLen l) := by
  induction l generalizing vec str m with
  | nil => exact ⟨m, rfl, trivial, fun _ _ _ => rfl⟩
  | cons s l ih =>
    rw [length_cons] at hvec
    rw [strLen_cons] at hstr
    have hlen : (s.1 ++ [(0 : UInt8)]).length = s.1.length + 1 := by simp
    have hput : put argsize m str (s.1 ++ [0]) = .ok (writeBytes m str (s.1 ++ [0])) := put_ok (by omega)
    have hword := putWord_ok (m := writeBytes m str (s.1 ++ [0])) ((arglow + str) % 2 ^ 32)
      (show vec + 4 ≤ argsize by omega)
    obtain ⟨m', hcopy, hin, hframe⟩ := ih (vec + 4) (str + (s.1.length + 1))
      (write32 (writeBytes m str (s.1 ++ [0])) vec ((arglow + str) % 2 ^ 32)) (by omega) (by omega)
    have hnext : ((arglow + str) % 2 ^ 32 + (s.1.length + 1)) % 2 ^ 32 =
        (arglow + (str + (s.1.length + 1))) % 2 ^ 32 := by omega
    refine ⟨m', ?_, ⟨?_, ?_, hin⟩, fun b h1 h2 => ?_⟩
    · rw [copyStrings]
      rw [hput, ok_bind, hword, ok_bind, hnext, hcopy, length_cons, strLen_cons]
      congr 3
      · omega
      · omega
      congr 1
      omega
    · rw [read32_congr fun b h1 h2 => hframe b (by omega) (by omega)]
      exact read32_write32 (Nat.mod_lt _ (by decide))
    · rw [bytes_congr fun i hi => hframe (str + i) (by omega) (by omega),
        bytes_congr fun i hi => write32_of_out (by omega), ← hlen]
      exact bytes_writeBytes m str _
    · rw [length_cons] at h1
      rw [strLen_cons] at h2
      rw [hframe b (by omega) (by omega), write32_of_out (by omega), writeBytes_of_out (by omega)]

/-- The entry as it is written, the table apart. -/
theorem copyAuxv_cons_spec (e : Auxv) (vec str table : ℕ) (m : Mem) (hvec : vec + 8 ≤ str)
    (htable : table < 2 ^ 32) (hstr : str + (if e.aType = AT_PHDR then phtsize else 0) ≤ argsize) :
    ∃ m', (∀ l, copyAuxv argsize kmem phtsize (e :: l) ⟨vec, str, table⟩ m =
        copyAuxv argsize kmem phtsize l ⟨vec + 8, str, table⟩ m') ∧
      read32 m' vec = e.aType.toNat ∧
      read32 m' (vec + 4) = (if e.aType = AT_PHDR then table else e.aUn.toNat) ∧
      Frame m m' vec 8 str (if e.aType = AT_PHDR then phtsize else 0) ∧
      (e.aType = AT_PHDR → bytes m' str phtsize = bytes kmem e.aUn.toNat phtsize) := by
  have h1 := putWord_ok (m := m) e.aType.toNat (show vec + 4 ≤ argsize by omega)
  have h2 := putWord_ok (m := write32 m vec e.aType.toNat) e.aUn.toNat (show vec + 4 + 4 ≤ argsize by omega)
  by_cases he : e.aType = AT_PHDR
  · simp only [if_pos he] at hstr ⊢
    have hlen := length_bytes kmem e.aUn.toNat phtsize
    have h3 := put_ok (m := write32 (write32 m vec e.aType.toNat) (vec + 4) e.aUn.toNat)
      (show str + (bytes kmem e.aUn.toNat phtsize).length ≤ argsize by omega)
    have h4 := putWord_ok (m := writeBytes (write32 (write32 m vec e.aType.toNat) (vec + 4) e.aUn.toNat) str
      (bytes kmem e.aUn.toNat phtsize)) table (show vec + 4 + 4 ≤ argsize by omega)
    refine ⟨write32 (writeBytes (write32 (write32 m vec e.aType.toNat) (vec + 4) e.aUn.toNat) str
      (bytes kmem e.aUn.toNat phtsize)) (vec + 4) table, fun l => ?_, ?_, read32_write32 htable,
      fun b hb hb' => ?_, fun _ => ?_⟩
    · rw [copyAuxv]
      rw [h1, ok_bind, h2, ok_bind, if_pos he, h3, ok_bind, h4, ok_bind]
    · rw [read32_write32_of_out (by omega), read32_congr fun b _ _ => writeBytes_of_out (by omega),
        read32_write32_of_out (by omega)]
      exact read32_write32 (UInt32.toNat_lt _)
    · rw [write32_of_out (by omega), writeBytes_of_out (by omega), write32_of_out (by omega),
        write32_of_out (by omega)]
    rw [bytes_congr fun i hi => write32_of_out (by omega)]
    have hwritten := bytes_writeBytes (write32 (write32 m vec e.aType.toNat) (vec + 4) e.aUn.toNat) str
      (bytes kmem e.aUn.toNat phtsize)
    rwa [hlen] at hwritten
  · simp only [if_neg he] at hstr ⊢
    refine ⟨write32 (write32 m vec e.aType.toNat) (vec + 4) e.aUn.toNat, fun l => ?_, ?_,
      read32_write32 (UInt32.toNat_lt _), fun b hb hb' => ?_, fun h => absurd h he⟩
    · rw [copyAuxv]
      rw [h1, ok_bind, h2, ok_bind, if_neg he, pure_bind]
    · rw [read32_write32_of_out (by omega)]
      exact read32_write32 (UInt32.toNat_lt _)
    · rw [write32_of_out (by omega), write32_of_out (by omega)]

theorem copyAuxv_spec (argsize : ℕ) (kmem : Mem) (phtsize : ℕ) {table : ℕ} (htable : table < 2 ^ 32)
    (l : List Auxv) (vec str : ℕ) (m : Mem) (hvec : vec + 8 * l.length ≤ str)
    (hstr : str + tabLen phtsize l ≤ argsize) (hone : l.countP (·.aType = AT_PHDR) ≤ 1) :
    ∃ m', copyAuxv argsize kmem phtsize l ⟨vec, str, table⟩ m = .ok (⟨vec + 8 * l.length, str, table⟩, m') ∧
      AuxIn m' table vec l ∧ Frame m m' vec (8 * l.length) str (tabLen phtsize l) ∧
      ∀ e ∈ l, e.aType = AT_PHDR → bytes m' str phtsize = bytes kmem e.aUn.toNat phtsize := by
  induction l generalizing vec str m with
  | nil => exact ⟨m, rfl, trivial, fun _ _ _ => rfl, fun _ he => by cases he⟩
  | cons e l ih =>
    rw [length_cons] at hvec
    rw [tabLen_cons] at hstr
    obtain ⟨m1, hstep, htype, hun, hframe1, hcopy1⟩ := copyAuxv_cons_spec e vec str table m (by omega) htable
      (show str + (if e.aType = AT_PHDR then phtsize else 0) ≤ argsize by omega)
    obtain ⟨m', hrest, hin, hframe, hcopy⟩ := ih (vec + 8) str m1 (by omega) (by omega) (countP_tail hone)
    refine ⟨m', ?_, ⟨?_, ?_, hin⟩, fun b h1 h2 => ?_, ?_⟩
    · rw [hstep, hrest, length_cons, Nat.add_assoc, show 8 + 8 * l.length = 8 * (l.length + 1) by omega]
    · rw [read32_congr fun b h1 h2 => hframe b (by omega) (by omega), htype]
    · rw [read32_congr fun b h1 h2 => hframe b (by omega) (by omega), hun]
    · rw [length_cons] at h1
      rw [tabLen_cons] at h2
      rw [hframe b (by omega) (by omega), hframe1 b (by omega) (by omega)]
    intro e' he' hphdr
    rcases mem_cons.1 he' with rfl | he'
    · -- nothing after it goes where its table went
      have hnone := tabLen_none phtsize (none_in_tail hone hphdr)
      rw [← hcopy1 hphdr]
      exact bytes_congr fun i hi => hframe _ (by omega) (by omega)
    · exact hcopy e' he' hphdr

def strStart (argv envp : List CString) (auxv : List Auxv) : ℕ :=
  32 + 4 * argv.length + 4 * envp.length + 8 * auxv.length

def tabStart (argv envp : List CString) (auxv : List Auxv) : ℕ :=
  strStart argv envp auxv + strLen argv + strLen envp

theorem layout (argv envp : List CString) (auxv : List Auxv) (phtsize : ℕ) :
    strStart argv envp auxv = 32 + 4 * argv.length + 4 * envp.length + 8 * auxv.length ∧
      tabStart argv envp auxv = strStart argv envp auxv + strLen argv + strLen envp ∧
      total argv envp auxv phtsize = tabStart argv envp auxv + tabLen phtsize auxv := by
  refine ⟨rfl, rfl, ?_⟩
  rw [total, tabStart, strStart]
  omega

/-- The buffer, filled. -/
structure Filled (m : Mem) (arglow : ℕ) (kmem : Mem) (argv envp : List CString) (auxv : List Auxv)
    (phtsize : ℕ) : Prop where
  argc : read32 m 0 = argv.length
  argvp : read32 m 4 = arglow + 16
  envpp : read32 m 8 = arglow + (20 + 4 * argv.length)
  auxvp : read32 m 12 = arglow + (24 + 4 * argv.length + 4 * envp.length)
  args : StringsIn m arglow 16 (strStart argv envp auxv) argv
  argsEnd : read32 m (16 + 4 * argv.length) = 0
  env : StringsIn m arglow (20 + 4 * argv.length) (strStart argv envp auxv + strLen argv) envp
  envEnd : read32 m (20 + 4 * argv.length + 4 * envp.length) = 0
  aux : AuxIn m ((arglow + tabStart argv envp auxv) % 2 ^ 32) (24 + 4 * argv.length + 4 * envp.length) auxv
  auxEnd : read32 m (24 + 4 * argv.length + 4 * envp.length + 8 * auxv.length) = 0
  table : ∀ e ∈ auxv, e.aType = AT_PHDR →
    bytes m (tabStart argv envp auxv) phtsize = bytes kmem e.aUn.toNat phtsize

theorem endStrings_ok {c : Cursors} (h : c.vecstart + 4 ≤ argsize) :
    endStrings argsize c m = .ok (⟨c.vecstart + 4, c.strstart, c.vstrstart⟩, write32 m c.vecstart 0) := by
  rw [endStrings, putWord_ok 0 h]
  rfl

def header (buf : Mem) (arglow argc envc : ℕ) : Mem :=
  write32 (write32 (write32 (write32 buf 0 argc) 4 (arglow + 16)) 8 (arglow + (20 + 4 * argc))) 12
    (arglow + (24 + 4 * argc + 4 * envc))

theorem header_words (buf : Mem) {argc envc : ℕ} (h : arglow + (24 + 4 * argc + 4 * envc) < 2 ^ 32) :
    read32 (header buf arglow argc envc) 0 = argc ∧ read32 (header buf arglow argc envc) 4 = arglow + 16 ∧
      read32 (header buf arglow argc envc) 8 = arglow + (20 + 4 * argc) ∧
      read32 (header buf arglow argc envc) 12 = arglow + (24 + 4 * argc + 4 * envc) := by
  refine ⟨?_, ?_, ?_, read32_write32 h⟩
  · rw [header, read32_write32_of_out (by omega), read32_write32_of_out (by omega),
      read32_write32_of_out (by omega), read32_write32 (by omega)]
  · rw [header, read32_write32_of_out (by omega), read32_write32_of_out (by omega), read32_write32 (by omega)]
  · rw [header, read32_write32_of_out (by omega), read32_write32 (by omega)]

/-- Filling the buffer is writing the four words, and then the vectors with what they point to. -/
theorem fillArgs_eq (hsize : argsize = total argv envp auxv phtsize) (hlow : arglow + argsize ≤ 2 ^ 32) :
    fillArgs argsize arglow kmem buf argv envp auxv argv.length envp.length auxv.length phtsize = (do
      let (c, m) ← copyStrings argsize argv
        ⟨16, strStart argv envp auxv, (arglow + strStart argv envp auxv) % 2 ^ 32⟩
        (header buf arglow argv.length envp.length)
      let (c, m) ← endStrings argsize c m
      let (c, m) ← copyStrings argsize envp c m
      let (c, m) ← endStrings argsize c m
      let (c, m) ← copyAuxv argsize kmem phtsize auxv c m
      putWord argsize m c.vecstart 0) := by
  obtain ⟨hstart, htab, htot⟩ := layout argv envp auxv phtsize
  have hveclen : ((argv.length + 1 + envp.length + 1) * 4 + (auxv.length + 1) * 8) % 2 ^ 32 =
      strStart argv envp auxv - 16 := by omega
  have hvvec : (arglow + 4 + 3 * 4) % 2 ^ 32 = arglow + 16 := by omega
  have henv : (arglow + 16 + (argv.length + 1) * 4) % 2 ^ 32 = arglow + (20 + 4 * argv.length) := by omega
  have haux : (arglow + 16 + (argv.length + 1 + envp.length + 1) * 4) % 2 ^ 32 =
      arglow + (24 + 4 * argv.length + 4 * envp.length) := by omega
  have hstr : 4 + 3 * 4 + (strStart argv envp auxv - 16) = strStart argv envp auxv := by omega
  have hvstr : arglow + 16 + (strStart argv envp auxv - 16) = arglow + strStart argv envp auxv := by omega
  rw [fillArgs, putWord_ok _ (by omega), ok_bind]
  dsimp only
  rw [putWord_ok _ (by omega), ok_bind, putWord_ok _ (by omega), ok_bind, putWord_ok _ (by omega), ok_bind,
    hveclen, hvvec, henv, haux, hstr, hvstr]
  rfl

theorem fillArgs_spec (kmem buf : Mem) (hsize : argsize = total argv envp auxv phtsize)
    (hlow : arglow + argsize ≤ 2 ^ 32) (hone : auxv.countP (·.aType = AT_PHDR) ≤ 1) :
    ∃ m, fillArgs argsize arglow kmem buf argv envp auxv argv.length envp.length auxv.length phtsize = .ok m ∧
      Filled m arglow kmem argv envp auxv phtsize := by
  obtain ⟨hstart, htab, htot⟩ := layout argv envp auxv phtsize
  have hargs : 16 + 4 * argv.length + 4 = 20 + 4 * argv.length := by omega
  have henv : 20 + 4 * argv.length + 4 * envp.length + 4 = 24 + 4 * argv.length + 4 * envp.length := by omega
  obtain ⟨m1, hcopy1, hin1, hframe1⟩ := copyStrings_spec argsize arglow argv 16 (strStart argv envp auxv)
    (header buf arglow argv.length envp.length) (by omega) (by omega)
  obtain ⟨m2, hcopy2, hin2, hframe2⟩ := copyStrings_spec argsize arglow envp (20 + 4 * argv.length)
    (strStart argv envp auxv + strLen argv) (write32 m1 (16 + 4 * argv.length) 0) (by omega) (by omega)
  obtain ⟨m3, hcopy3, hin3, hframe3, htable⟩ := copyAuxv_spec argsize kmem phtsize
    (Nat.mod_lt (arglow + tabStart argv envp auxv) (by decide)) auxv (24 + 4 * argv.length + 4 * envp.length)
    (tabStart argv envp auxv) (write32 m2 (20 + 4 * argv.length + 4 * envp.length) 0) (by omega) (by omega) hone
  have hrun : fillArgs argsize arglow kmem buf argv envp auxv argv.length envp.length auxv.length phtsize =
      .ok (write32 m3 (24 + 4 * argv.length + 4 * envp.length + 8 * auxv.length) 0) := by
    rw [fillArgs_eq hsize hlow, hcopy1, ok_bind]
    dsimp only
    rw [endStrings_ok (by dsimp only; omega), ok_bind]
    rw [hargs, hcopy2, ok_bind]
    rw [endStrings_ok (by dsimp only; omega), ok_bind]
    rw [henv, ← htab, hcopy3, ok_bind]
    exact putWord_ok 0 (show 24 + 4 * argv.length + 4 * envp.length + 8 * auxv.length + 4 ≤ argsize by omega)
  refine ⟨_, hrun, ?_⟩
  generalize hm : write32 m3 (24 + 4 * argv.length + 4 * envp.length + 8 * auxv.length) 0 = m
  -- what the later stages leave of the earlier ones
  have hlast : ∀ b, b < 24 + 4 * argv.length + 4 * envp.length + 8 * auxv.length ∨ strStart argv envp auxv ≤ b →
      m b = m3 b := fun b hb => by rw [← hm, write32_of_out (by omega)]
  have haux : ∀ b, b < 24 + 4 * argv.length + 4 * envp.length ∨
      (strStart argv envp auxv ≤ b ∧ b < tabStart argv envp auxv) →
      m b = write32 m2 (20 + 4 * argv.length + 4 * envp.length) 0 b := fun b hb => by
    rw [hlast b (by omega), hframe3 b (by omega) (by omega)]
  have henvp : ∀ b, b < 20 + 4 * argv.length ∨
      (strStart argv envp auxv ≤ b ∧ b < strStart argv envp auxv + strLen argv) →
      m b = write32 m1 (16 + 4 * argv.length) 0 b := fun b hb => by
    rw [haux b (by omega), write32_of_out (by omega), hframe2 b (by omega) (by omega)]
  have hargv : ∀ b, b < 16 → m b = header buf arglow argv.length envp.length b := fun b hb => by
    rw [henvp b (by omega), write32_of_out (by omega), hframe1 b (by omega) (by omega)]
  have hwords := header_words buf (show arglow + (24 + 4 * argv.length + 4 * envp.length) < 2 ^ 32 by omega)
  constructor
  case argc => rw [read32_congr fun b _ _ => hargv b (by omega), hwords.1]
  case argvp => rw [read32_congr fun b _ _ => hargv b (by omega), hwords.2.1]
  case envpp => rw [read32_congr fun b _ _ => hargv b (by omega), hwords.2.2.1]
  case auxvp => rw [read32_congr fun b _ _ => hargv b (by omega), hwords.2.2.2]
  case args =>
    refine hin1.congr argv (fun b _ _ => ?_) fun b _ _ => ?_
    · rw [henvp b (by omega), write32_of_out (by omega)]
    · rw [henvp b (by omega), write32_of_out (by omega)]
  case argsEnd =>
    rw [read32_congr fun b _ _ => henvp b (by omega), read32_write32 (by decide)]
  case env =>
    refine hin2.congr envp (fun b _ _ => ?_) fun b _ _ => ?_
    · rw [haux b (by omega), write32_of_out (by omega)]
    · rw [haux b (by omega), write32_of_out (by omega)]
  case envEnd =>
    rw [read32_congr fun b _ _ => haux b (by omega), read32_write32 (by decide)]
  case aux => exact hin3.congr auxv fun b _ _ => hlast b (by omega)
  case auxEnd => rw [← hm, read32_write32 (by decide)]
  case table =>
    intro e he hphdr
    rw [← htable e he hphdr]
    exact bytes_congr fun i _ => hlast _ (by omega)

/-! ### The program's view -/

theorem cstring_eq {s : List UInt8} (hs : 0 ∉ s) (h : bytes m a (s.length + 1) = s ++ [0]) (hn : s.length < n) :
    cstring m n a = s := by
  induction s generalizing a n with
  | nil =>
    obtain ⟨n, rfl⟩ := Nat.exists_eq_succ_of_ne_zero hn.ne'
    rw [length_nil, bytes_succ] at h
    rw [cstring, if_pos (List.cons.inj h).1]
  | cons x s ih =>
    obtain ⟨n, rfl⟩ := Nat.exists_eq_succ_of_ne_zero (Nat.zero_lt_of_lt hn).ne'
    rw [length_cons, bytes_succ] at h
    obtain ⟨h1, h2⟩ := List.cons.inj h
    rw [length_cons] at hn
    have hx : m a ≠ 0 := fun h0 => hs (h1 ▸ h0 ▸ mem_cons_self)
    rw [cstring, if_neg hx, h1, ih (fun hmem => hs (mem_cons_of_mem _ hmem)) h2 (by omega)]

/-- The program sees the buffer at `arglow`. -/
def At (user : Mem) (arglow argsize : ℕ) (m : Mem) : Prop := ∀ i < argsize, user (arglow + i) = m i

theorem At.read32 (h : At user arglow argsize m) (ha : a + 4 ≤ argsize) :
    Memory.read32 user (arglow + a) = Memory.read32 m a := by
  have h0 := h a (by omega)
  have h1 := h (a + 1) (by omega)
  have h2 := h (a + 2) (by omega)
  have h3 := h (a + 3) (by omega)
  rw [Memory.read32, Memory.read32, ← h0, ← h1, ← h2, ← h3]
  rfl

theorem At.bytes (h : At user arglow argsize m) (ha : a + n ≤ argsize) :
    Memory.bytes user (arglow + a) n = Memory.bytes m a n :=
  bytes_congr fun i hi => by rw [Nat.add_assoc]; exact h _ (by omega)

/-- A vector of strings and its strings, read through the pointers. -/
theorem StringsIn.view (hat : At user arglow argsize m) (hlow : arglow + argsize ≤ 2 ^ 32) (l : List CString)
    (h : StringsIn m arglow vec str l) (hend : Memory.read32 m (vec + 4 * l.length) = 0)
    (hvec : vec + 4 * l.length + 4 ≤ argsize) (hstr : str + strLen l ≤ argsize) (hpos : 0 < str)
    (hk : l.length < k) : stringVec user argsize k (arglow + vec) = l.map Subtype.val ∧
      Row (arglow + str) (stringParts user (arglow + vec) l) (arglow + (str + strLen l)) := by
  induction l generalizing vec str k with
  | nil =>
    obtain ⟨k, rfl⟩ := Nat.exists_eq_succ_of_ne_zero hk.ne'
    rw [length_nil, Nat.mul_zero, Nat.add_zero] at hend
    rw [stringVec, hat.read32 (by omega), if_pos hend]
    exact ⟨rfl, rfl⟩
  | cons s l ih =>
    obtain ⟨k, rfl⟩ := Nat.exists_eq_succ_of_ne_zero (Nat.zero_lt_of_lt hk).ne'
    obtain ⟨hptr, hbytes, hrest⟩ := h
    rw [strLen_cons] at hstr ⊢
    rw [length_cons] at hend hvec hk
    have hread : Memory.read32 user (arglow + vec) = arglow + str := by
      rw [hat.read32 (by omega), hptr, Nat.mod_eq_of_lt (by omega)]
    have hstring : cstring user argsize (arglow + str) = s.1 :=
      cstring_eq s.2 (by rw [hat.bytes (by omega), hbytes]) (by omega)
    obtain ⟨hvec', hrow⟩ := ih hrest (by rw [← hend]; congr 1; omega) (by omega) (by omega) (by omega)
      (Nat.lt_of_succ_lt_succ hk)
    refine ⟨?_, ?_⟩
    · rw [stringVec, hread, if_neg (by omega), hstring, map_cons, ← hvec', Nat.add_assoc]
    refine ⟨hread, ?_⟩
    rw [Nat.add_assoc arglow vec, Nat.add_assoc arglow str]
    rw [Nat.add_assoc str] at hrow
    exact hrow

theorem AuxIn.view (hat : At user arglow argsize m) {table : ℕ} (l : List Auxv) (h : AuxIn m table vec l)
    (hend : Memory.read32 m (vec + 8 * l.length) = 0) (hvec : vec + 8 * l.length + 8 ≤ argsize)
    (hk : l.length < k) : auxVec user k (arglow + vec) =
      l.map fun e => (e.aType.toNat, if e.aType = AT_PHDR then table else e.aUn.toNat) := by
  induction l generalizing vec k with
  | nil =>
    obtain ⟨k, rfl⟩ := Nat.exists_eq_succ_of_ne_zero hk.ne'
    rw [length_nil, Nat.mul_zero, Nat.add_zero] at hend
    rw [auxVec, hat.read32 (by omega), hend]
    exact if_pos rfl
  | cons e l ih =>
    obtain ⟨k, rfl⟩ := Nat.exists_eq_succ_of_ne_zero (Nat.zero_lt_of_lt hk).ne'
    obtain ⟨htype, hun, hrest⟩ := h
    rw [length_cons] at hend hvec hk
    have hne : e.aType.toNat ≠ AT_NULL.toNat := fun h => e.entry (UInt32.toNat_inj.1 h)
    have htail := ih hrest (by rw [← hend]; congr 1; omega) (by omega) (Nat.lt_of_succ_lt_succ hk)
    rw [auxVec, hat.read32 (by omega), htype, if_neg hne, Nat.add_assoc, hat.read32 (by omega), hun, map_cons,
      ← htail, Nat.add_assoc]

theorem tableParts_none (m : Mem) {l : List Auxv} (h : ∀ e ∈ l, e.aType ≠ AT_PHDR) (a : ℕ) :
    tableParts m phtsize a l = [] := by
  induction l generalizing a with
  | nil => rfl
  | cons e l ih =>
    rw [tableParts, if_neg (h e mem_cons_self), ih fun e he => h e (mem_cons_of_mem _ he)]

/-- The table stands alone behind the strings. -/
theorem AuxIn.row (phtsize : ℕ) (hat : At user arglow argsize m) {table b : ℕ} :
    ∀ (l : List Auxv) {vec : ℕ}, AuxIn m table vec l → vec + 8 * l.length ≤ argsize →
    l.countP (·.aType = AT_PHDR) ≤ 1 → (∀ e ∈ l, e.aType = AT_PHDR → table = b) →
    Row b (tableParts user phtsize (arglow + vec) l) (b + tabLen phtsize l) := by
  intro l
  induction l with
  | nil => exact fun _ _ _ _ => rfl
  | cons e l ih =>
    intro vec h hvec hone htable
    rw [length_cons] at hvec
    have htail := ih h.2.2 (by omega) (countP_tail hone) fun e he => htable e (mem_cons_of_mem _ he)
    rw [tableParts, tabLen_cons, Nat.add_assoc arglow vec]
    by_cases he : e.aType = AT_PHDR
    · have hread : Memory.read32 user (arglow + vec + 4) = b := by
        rw [Nat.add_assoc, hat.read32 (by omega), h.2.1, if_pos he, htable e mem_cons_self he]
      -- there is no other table
      have hnone := none_in_tail hone he
      rw [if_pos he, if_pos he, tableParts_none user hnone, tabLen_none phtsize hnone]
      exact ⟨hread, rfl⟩
    · rw [if_neg he, if_neg he, Nat.zero_add]
      exact htail

theorem tableParts_pos (m : Mem) {l : List Auxv} (h : ∀ e ∈ l, e.aType = AT_PHDR → 0 < phtsize) (a : ℕ) :
    ∀ r ∈ tableParts m phtsize a l, 0 < r.2 := by
  induction l generalizing a with
  | nil => exact fun r hr => by cases hr
  | cons e l ih =>
    intro r hr
    have htail := ih (fun e he => h e (mem_cons_of_mem _ he)) (a + 8)
    rw [tableParts] at hr
    by_cases he : e.aType = AT_PHDR
    · rw [if_pos he] at hr
      rcases mem_cons.1 hr with rfl | hr
      · exact h e mem_cons_self he
      · exact htail r hr
    · rw [if_neg he] at hr
      exact htail r hr

theorem stringParts_pos (m : Mem) (l : List CString) (a : ℕ) : ∀ r ∈ stringParts m a l, 0 < r.2 := by
  induction l generalizing a with
  | nil => exact fun r hr => by cases hr
  | cons s l ih =>
    intro r hr
    rcases mem_cons.1 hr with rfl | hr
    · exact Nat.succ_pos _
    · exact ih _ r hr

theorem parts_pos (m : Mem) (arglow : ℕ) (argv envp : List CString)
    (h : ∀ e ∈ auxv, e.aType = AT_PHDR → 0 < phtsize) : ∀ r ∈ parts m arglow argv envp auxv phtsize, 0 < r.2 := by
  intro r hr
  rw [parts, mem_append, mem_append, mem_append] at hr
  rcases hr with hr | hr | hr | hr
  · simp only [mem_cons, not_mem_nil, or_false] at hr
    rcases hr with rfl | rfl | rfl | rfl <;> simp
  · exact stringParts_pos m argv _ r hr
  · exact stringParts_pos m envp _ r hr
  · exact tableParts_pos m h _ r hr

/-- The table has its place in the block. -/
theorem le_tabLen (phtsize : ℕ) {e : Auxv} (he : e ∈ auxv) (hphdr : e.aType = AT_PHDR) :
    phtsize ≤ tabLen phtsize auxv :=
  le_sum_of_mem (mem_map.2 ⟨e, he, if_pos hphdr⟩)

theorem table_addr (hlow : arglow + total argv envp auxv phtsize ≤ 2 ^ 32)
    (hpht : ∀ e ∈ auxv, e.aType = AT_PHDR → 0 < phtsize) : ∀ e ∈ auxv, e.aType = AT_PHDR →
      (arglow + tabStart argv envp auxv) % 2 ^ 32 = arglow + tabStart argv envp auxv := by
  intro e he hphdr
  have hpos := hpht e he hphdr
  obtain ⟨hstart, htab, htot⟩ := layout argv envp auxv phtsize
  have hle := le_tabLen phtsize he hphdr
  exact Nat.mod_eq_of_lt (by omega)

section
variable (h : Filled m arglow kmem argv envp auxv phtsize) (hat : At user arglow argsize m)
  (hsize : argsize = total argv envp auxv phtsize) (hlow : arglow + argsize ≤ 2 ^ 32)
include h hat hsize

theorem Filled.words : read32 user arglow = argv.length ∧ read32 user (arglow + 4) = arglow + 16 ∧
    read32 user (arglow + 8) = arglow + (20 + 4 * argv.length) ∧
    read32 user (arglow + 12) = arglow + (24 + 4 * argv.length + 4 * envp.length) := by
  rw [total] at hsize
  refine ⟨?_, ?_, ?_, ?_⟩
  · rw [← h.argc]
    exact hat.read32 (show 0 + 4 ≤ argsize by omega)
  · rw [hat.read32 (by omega), h.argvp]
  · rw [hat.read32 (by omega), h.envpp]
  · rw [hat.read32 (by omega), h.auxvp]

include hlow

theorem Filled.strings :
    (stringVec user argsize argsize (arglow + 16) = argv.map Subtype.val ∧
      Row (arglow + strStart argv envp auxv) (stringParts user (arglow + 16) argv)
        (arglow + (strStart argv envp auxv + strLen argv))) ∧
    (stringVec user argsize argsize (arglow + (20 + 4 * argv.length)) = envp.map Subtype.val ∧
      Row (arglow + (strStart argv envp auxv + strLen argv))
        (stringParts user (arglow + (20 + 4 * argv.length)) envp) (arglow + tabStart argv envp auxv)) := by
  obtain ⟨hstart, htab, htot⟩ := layout argv envp auxv phtsize
  exact ⟨h.args.view hat hlow argv h.argsEnd (by omega) (by omega) (by omega) (by omega),
    h.env.view hat hlow envp h.envEnd (by omega) (by omega) (by omega) (by omega)⟩

section
variable (hone : auxv.countP (·.aType = AT_PHDR) ≤ 1) (hpht : ∀ e ∈ auxv, e.aType = AT_PHDR → 0 < phtsize)
include hone hpht

/-- The parts lie in the block in the order in which they are listed. -/
theorem Filled.row : Row arglow (parts user arglow argv envp auxv phtsize) (arglow + argsize) := by
  obtain ⟨-, hargv, henvp, hauxv⟩ := h.words hat hsize
  obtain ⟨⟨-, hargs⟩, -, henv⟩ := h.strings hat hsize hlow
  obtain ⟨hstart, htab, htot⟩ := layout argv envp auxv phtsize
  have htable := h.aux.row phtsize hat auxv (by omega) hone (table_addr (hsize ▸ hlow) hpht)
  rw [parts, hargv, henvp, hauxv]
  refine Row.append ⟨rfl, rfl, ?_, ?_, ?_⟩ (hargs.append (henv.append ?_))
  · omega
  · omega
  · show _ = _
    omega
  · rwa [Nat.add_assoc arglow (tabStart argv envp auxv), ← htot, ← hsize] at htable

theorem Filled.found : Found user arglow argsize kmem argv envp auxv phtsize := by
  obtain ⟨hargc, hargv, henvp, hauxv⟩ := h.words hat hsize
  obtain ⟨⟨hargs, -⟩, henv, -⟩ := h.strings hat hsize hlow
  have hrow := h.row hat hsize hlow hone hpht
  have hpos := parts_pos user arglow argv envp hpht
  obtain ⟨hstart, htab, htot⟩ := layout argv envp auxv phtsize
  constructor
  case argc => exact hargc
  case args => rw [hargv, hargs]
  case env => rw [henvp, henv]
  case aux =>
    refine ⟨(arglow + tabStart argv envp auxv) % 2 ^ 32, ?_, fun e he hphdr => ?_⟩
    · rw [hauxv, h.aux.view hat auxv h.auxEnd (by omega) (by omega)]
    have hle := le_tabLen phtsize he hphdr
    rw [table_addr (hsize ▸ hlow) hpht e he hphdr, hat.bytes (by omega), h.table e he hphdr]
  case inside =>
    intro r hr
    have hin := hrow.inside r hr
    have := hpos r hr
    exact ⟨hin.1, by omega, hin.2⟩
  case apart => exact hrow.apart.imp fun hle => .inl hle

end

end

theorem args_on_stack_found (user kmem buf : Mem) (argv envp : List CString) (auxv : List Auxv)
    (phtsize arglow : ℕ) (hone : auxv.countP (·.aType = AT_PHDR) ≤ 1)
    (hpht : ∀ e ∈ auxv, e.aType = AT_PHDR → 0 < phtsize)
    (hsize : total argv envp auxv phtsize < 2 ^ 32) (hlow : arglow + total argv envp auxv phtsize ≤ 2 ^ 32) :
    ∃ m, argsOnStack user arglow kmem buf argv envp auxv phtsize = .ok m ∧
      Found m arglow (calcArgsize argv envp auxv phtsize).1 kmem argv envp auxv phtsize ∧
      ∀ a, a < arglow ∨ arglow + (calcArgsize argv envp auxv phtsize).1 ≤ a → m a = user a := by
  have hcalc : calcArgsize argv envp auxv phtsize =
      (total argv envp auxv phtsize, argv.length, envp.length, auxv.length) := by
    rw [calcArgsize_eq, Nat.mod_eq_of_lt hsize]
  obtain ⟨m, hfill, hm⟩ := fillArgs_spec kmem buf rfl hlow hone
  rw [argsOnStack, hcalc]
  refine ⟨vmmapWrite user arglow m (total argv envp auxv phtsize), ?_, hm.found ?_ rfl hlow hone hpht, ?_⟩
  · dsimp only
    rw [loadArgs, hfill]
    rfl
  · intro i hi
    rw [vmmapWrite, if_pos (by omega), Nat.add_sub_cancel_left]
  · intro a ha
    exact if_neg (by omega)

theorem args_on_stack_found_hi :
    ∃ m, argsOnStack (fun _ => 0) 4096 (fun _ => 7) (fun _ => 1) [⟨[104, 105], by decide⟩] [⟨[], by decide⟩]
        [⟨AT_PHDR, 32, by decide⟩] 64 = .ok m ∧
      Found m 4096 (calcArgsize [⟨[104, 105], by decide⟩] [⟨[], by decide⟩] [⟨AT_PHDR, 32, by decide⟩] 64).1
        (fun _ => 7) [⟨[104, 105], by decide⟩] [⟨[], by decide⟩] [⟨AT_PHDR, 32, by decide⟩] 64 ∧
      ∀ a, a < 4096 ∨ 4096 + (calcArgsize [⟨[104, 105], by decide⟩] [⟨[], by decide⟩]
        [⟨AT_PHDR, 32, by decide⟩] 64).1 ≤ a → m a = 0 :=
  args_on_stack_found (fun _ => 0) (fun _ => 7) (fun _ => 1) [⟨[104, 105], by decide⟩] [⟨[], by decide⟩]
    [⟨AT_PHDR, 32, by decide⟩] 64 4096 (by decide) (by decide) (by decide) (by decide)

/-- At the very end of the address space the vectors have no room, and the pointers to them wrap. -/
theorem args_wrap : ∃ m, argsOnStack (fun _ => 0) (2 ^ 32 - 16) (fun _ => 0) (fun _ => 0) [] [] [] 0 = .ok m ∧
    read32 m (2 ^ 32 - 16 + 4) = 0 ∧
    ¬ Found m (2 ^ 32 - 16) (calcArgsize [] [] [] 0).1 (fun _ => 0) [] [] [] 0 := by
  obtain ⟨m, hm, h0⟩ : ∃ m, argsOnStack (fun _ => 0) (2 ^ 32 - 16) (fun _ => 0) (fun _ => 0) [] [] [] 0 = .ok m ∧
      read32 m (2 ^ 32 - 16 + 4) = 0 := ⟨_, rfl, by decide +kernel⟩
  refine ⟨m, hm, h0, fun h => ?_⟩
  have hle := (h.inside (read32 m (2 ^ 32 - 16 + 4), 4) (by simp [parts])).1
  rw [h0] at hle
  exact absurd hle (by decide)

end Weenix.Elf
