import ExprMachine.Proofs.Chunk.Writing
import Mathlib.Data.List.Basic
import Mathlib.Data.List.Induction

/-! The constants of a chunk, for calls in any order. Calls that share a constant keep each one
once, in order of its first use, and answer with its place. -/

namespace ExprMachine

/-! Lists to which an element is added unless it is there. -/

section Pooled

variable {α : Type} [DecidableEq α]

def pooled (pool : List α) (a : α) : List α := if a ∈ pool then pool else pool ++ [a]

theorem isPrefix_pooled (pool : List α) (a : α) : pool <+: pooled pool a := by
  unfold pooled
  split
  · exact List.prefix_rfl
  · exact List.prefix_append _ _

theorem isPrefix_foldl_pooled (as pool : List α) : pool <+: as.foldl pooled pool := by
  induction as generalizing pool with
  | nil => exact List.prefix_rfl
  | cons a as ih => exact (isPrefix_pooled pool a).trans (ih _)

theorem mem_pooled (pool : List α) (a : α) : a ∈ pooled pool a := by
  unfold pooled
  split
  · assumption
  · simp

theorem foldl_pooled (as : List α) : as.foldl pooled [] = as.eraseDups := by
  induction as using List.reverseRecOn with
  | nil => rfl
  | append_singleton as a ih =>
    rw [List.foldl_append, ih, List.eraseDups_append]
    by_cases h : a ∈ as <;> simp [pooled, h, List.removeAll, List.eraseDups_cons]

theorem Nodup.pooled {pool : List α} (h : pool.Nodup) (a : α) : (pooled pool a).Nodup := by
  unfold ExprMachine.pooled
  split
  · exact h
  · next ha => exact List.concat_eq_append ▸ h.concat ha

theorem nodup_eraseDups (as : List α) : as.eraseDups.Nodup := by
  rw [← foldl_pooled]
  exact List.foldlRecOn as ExprMachine.pooled List.nodup_nil fun _ h a _ => Nodup.pooled h a

/-- An element has its place before it is added. -/
theorem idxOf_of_pooled_isPrefix {pool final : List α} {a : α} (h : pooled pool a <+: final) :
    pool.idxOf a = final.idxOf a := by
  obtain ⟨rest, rfl⟩ := h
  rw [List.idxOf_append_of_mem (mem_pooled pool a)]
  unfold pooled
  split
  · rfl
  · next ha =>
    rw [List.idxOf_eq_length ha, List.idxOf_append_of_notMem ha, List.idxOf_cons_self]
    rfl

end Pooled

namespace Constant

/-- Numbers of the same bits and texts of the same characters. The two zeros differ, and so do
NaNs of other signs or payloads. -/
inductive Identical : Constant → Constant → Prop
  | number {x y : UInt64} : x = y → Identical (.number x) (.number y)
  | text (s : String) : Identical (.text s) (.text s)

theorem identical_iff_same {a b : Constant} : a.Identical b ↔ a.same b = true := by
  constructor
  · rintro (h | s)
    · exact beq_iff_eq.mpr h
    · exact beq_self_eq_true s
  · intro h
    cases a with
    | number x =>
      cases b with
      | number y => exact .number (beq_iff_eq.mp h)
      | text t => cases h
    | text s =>
      cases b with
      | number y => cases h
      | text t =>
        obtain rfl := beq_iff_eq.mp h
        exact .text s

theorem identical_iff {a b : Constant} : a.Identical b ↔ a = b :=
  identical_iff_same.trans same_iff

end Constant

namespace ChunkCall

/-- The constant of a call that shares it with those before. -/
def shared? : ChunkCall → Option Constant
  | writeConstant k _ | intern k => some k
  | _ => none

end ChunkCall

namespace Chunk

def pool (c : Chunk) : List Constant := c.constants.toList

theorem find?_eq (c : Chunk) (k : Constant) :
    c.find? k = if k ∈ c.pool then some (c.pool.idxOf k) else none := by
  have hsame : k.same = (· == k) := by
    funext a
    rw [Bool.eq_iff_iff, Constant.same_iff, beq_iff_eq, eq_comm]
  have hlist : c.find? k = c.pool.findIdx? (· == k) := by
    rw [find?, hsame, ← List.findIdx?_toArray]
    rfl
  rw [hlist, List.findIdx?_eq_guard_findIdx_lt, Option.guard]
  refine if_congr ?_ rfl rfl
  exact decide_eq_true_iff.trans List.idxOf_lt_length_iff

theorem intern_eq (c : Chunk) (k : Constant) :
    c.intern k = ({ c with constants := (pooled c.pool k).toArray }, c.pool.idxOf k) := by
  rw [intern, find?_eq, pooled]
  by_cases h : k ∈ c.pool
  · simp only [if_pos h]
    rfl
  · simp only [if_neg h, List.idxOf_eq_length h]
    rw [append, pool, ← Array.toList_push, Array.toArray_toList, Array.length_toList]

theorem pool_intern (c : Chunk) (k : Constant) : (c.intern k).1.pool = pooled c.pool k := by
  rw [intern_eq, pool]

theorem pool_writeAll (c : Chunk) (bytes : List UInt8) (line : Nat) :
    (c.writeAll bytes line).pool = c.pool := by
  rw [pool, constants_writeAll, pool]

variable {c : Chunk} {call : ChunkCall} {calls : List ChunkCall} {k : Constant} {ks : List Constant}

theorem pool_writeConstant (c : Chunk) (k : Constant) (line : Nat) :
    (c.writeConstant k line).1.pool = pooled c.pool k := by
  rw [writeConstant_eq]
  split
  · rw [pool_writeAll, pool_intern]
  · exact c.pool_intern k

theorem length_loadBytes (index : Nat) :
    (loadBytes index).length = if index ≤ 255 then 2 else 4 := by
  by_cases h : index < 256
  · rw [loadBytes, if_pos h, if_pos (Nat.le_of_lt_succ h)]
    rfl
  · rw [loadBytes, if_neg h, if_neg (by omega)]
    rfl

theorem pool_answer (h : call.shared? = some k) : (c.answer call).2.pool = pooled c.pool k := by
  cases call with
  | writeConstant k' line =>
    cases h
    exact c.pool_writeConstant k line
  | intern k' =>
    cases h
    exact c.pool_intern k
  | write | writeOp | append => cases h

theorem answer_shared (h : call.shared? = some k) (hi : c.pool.idxOf k ≤ lastIndex) :
    (c.answer call).1 = some (c.pool.idxOf k) := by
  cases call with
  | writeConstant k' line =>
    cases h
    rw [answer, writeConstant_eq, intern_eq, if_pos hi]
  | intern k' =>
    cases h
    rw [answer, intern_eq]
  | write | writeOp | append => cases h

theorem pool_run (h : calls.map ChunkCall.shared? = ks.map some) :
    (Calls.run answer c calls).2.pool = ks.foldl pooled c.pool := by
  induction calls generalizing c ks with
  | nil =>
    cases ks with
    | nil => rfl
    | cons k ks => cases h
  | cons call calls ih =>
    cases ks with
    | nil => cases h
    | cons k ks =>
      obtain ⟨hk, hks⟩ := List.cons.inj h
      rw [List.foldl_cons, ← pool_answer hk]
      exact ih hks

/-- All calls are answered by the places of their constants in the pool that they end with. -/
theorem answers_run (h : calls.map ChunkCall.shared? = ks.map some)
    (hl : (ks.foldl pooled c.pool).length ≤ lastIndex + 1) :
    (Calls.run answer c calls).1 = ks.map fun k => some ((ks.foldl pooled c.pool).idxOf k) := by
  induction calls generalizing c ks with
  | nil =>
    cases ks with
    | nil => rfl
    | cons k ks => cases h
  | cons call calls ih =>
    cases ks with
    | nil => cases h
    | cons k ks =>
      obtain ⟨hk, hks⟩ := List.cons.inj h
      rw [List.foldl_cons] at hl ⊢
      have hfinal := isPrefix_foldl_pooled ks (pooled c.pool k)
      have hplace := idxOf_of_pooled_isPrefix hfinal
      have hlt := List.idxOf_lt_length_of_mem (hfinal.subset (mem_pooled c.pool k))
      rw [← pool_answer hk] at hl hlt hplace ⊢
      have hi : c.pool.idxOf k ≤ lastIndex := by omega
      rw [Calls.run_cons, answer_shared hk hi, ih hks hl, hplace, List.map_cons]

/-- What a call that shares a constant is answered, and what it leaves for all later calls. -/
structure Shares (c : Chunk) (k : Constant) (index : Nat) (d : Chunk) : Prop where
  found : d.constants[index]? = some k
  first : ∀ j < index, ∀ k', d.constants[j]? = some k' → ¬ k'.Identical k
  kept : ∀ later, (Calls.run answer d later).2.constants[index]? = some k

theorem shares_of_pool {d : Chunk} (h : d.pool = pooled c.pool k) :
    c.Shares k (c.pool.idxOf k) d := by
  have hplace : c.pool.idxOf k = d.pool.idxOf k :=
    idxOf_of_pooled_isPrefix (h ▸ List.prefix_rfl)
  have hmem : k ∈ d.pool := h ▸ mem_pooled c.pool k
  have hfound : d.constants[c.pool.idxOf k]? = some k := by
    rw [← Array.getElem?_toList, hplace]
    exact List.getElem?_idxOf hmem
  have hkept (later : List ChunkCall) : d.Extends (Calls.run answer d later).2 :=
    (lasting_extends d).run (.refl d) later
  refine ⟨hfound, fun j hj k' hk' hid => ?_, fun later => (hkept later).constant_at hfound⟩
  rw [hplace] at hj
  obtain ⟨hlt, rfl⟩ := Array.getElem?_eq_some_iff.mp hk'
  have hne := List.not_of_lt_findIdx hj
  rw [Array.getElem_toList, beq_eq_false_iff_ne] at hne
  exact hne (Constant.identical_iff.mp hid)

/-- Two constants are identical if they are numbers of the same bits or texts of the same
characters. After any calls on an empty chunk, a call that shares a constant finds it at the first
identical constant of the pool, or at its end, and the constant stays there, bit for bit, whatever
is called later; `writeConstant` then writes two bytes if its index fits into a byte, and four if
not. After calls that all share, the pool has no two identical constants and lists them in order of
their first use, and if it is not too large, two calls are answered with one index exactly if their
constants are identical. -/
theorem pooled_constants (calls : List ChunkCall) :
    let c := written calls
    (∀ a b : Constant, a.Identical b ↔ a = b) ∧
    (∀ k line, ∃ index,
      (c.answer (.intern k)).1 = some index ∧
      (c.answer (.writeConstant k line)).1 = (if index ≤ lastIndex then some index else none) ∧
      c.Shares k index (c.answer (.intern k)).2 ∧
      c.Shares k index (c.answer (.writeConstant k line)).2 ∧
      (index ≤ lastIndex → ∃ bytes, bytes.length = (if index ≤ 255 then 2 else 4) ∧
        (c.answer (.writeConstant k line)).2.code.toList = c.code.toList ++ bytes)) ∧
    ∀ ks : List Constant, calls.map ChunkCall.shared? = ks.map some →
      c.constants.toList = ks.eraseDups ∧
      c.constants.toList.Pairwise (fun a b => ¬ a.Identical b) ∧
      (ks.eraseDups.length ≤ 16777216 →
        (Calls.run answer empty calls).1 = ks.map (fun k => some (ks.eraseDups.idxOf k)) ∧
        ∀ a ∈ ks, ∀ b ∈ ks, ks.eraseDups.idxOf a = ks.eraseDups.idxOf b ↔ a.Identical b) := by
  intro c
  refine ⟨fun a b => Constant.identical_iff, fun k line => ⟨c.pool.idxOf k, ?_⟩, fun ks hks => ?_⟩
  · refine ⟨by rw [answer, intern_eq], ?_, shares_of_pool (c.pool_intern k),
      shares_of_pool (c.pool_writeConstant k line), fun hi => ?_⟩
    · rw [answer, writeConstant_eq, intern_eq]
      split <;> rfl
    · refine ⟨loadBytes (c.pool.idxOf k), length_loadBytes _, ?_⟩
      rw [answer, writeConstant_eq, intern_eq, if_pos hi, code_writeAll]
  · have hpool : c.pool = ks.eraseDups := (pool_run hks).trans (foldl_pooled ks)
    refine ⟨hpool, ?_, fun hl => ⟨?_, fun a ha b _ => ?_⟩⟩
    · rw [show c.constants.toList = ks.eraseDups from hpool]
      exact (nodup_eraseDups ks).imp fun h hid => h (Constant.identical_iff.mp hid)
    · have hempty : empty.pool = [] := rfl
      rw [answers_run hks (by rwa [hempty, foldl_pooled]), hempty, foldl_pooled]
    · rw [Constant.identical_iff]
      exact List.idxOf_inj (List.mem_eraseDups.mpr ha)

/-- The two zeros are two constants, and so are two NaNs that differ in their sign. -/
theorem pooled_constants_zeros :
    let zero : Constant := .number 0
    let negativeZero : Constant := .number 0x8000000000000000
    let nan : Constant := .number 0x7ff8000000000000
    let negativeNan : Constant := .number 0xfff8000000000000
    let calls : List ChunkCall := [.writeConstant zero 1, .intern negativeZero,
      .writeConstant nan 1, .intern nan, .writeConstant negativeNan 1, .intern (.text "0"),
      .writeConstant zero 2]
    let ks := [zero, negativeZero, nan, nan, negativeNan, .text "0", zero]
    calls.map ChunkCall.shared? = ks.map some ∧ ks.eraseDups.length ≤ 16777216 ∧
    (Calls.run answer empty calls).1 =
      [some 0, some 1, some 2, some 2, some 3, some 4, some 0] ∧
    (written calls).constants.toList = [zero, negativeZero, nan, negativeNan, .text "0"] ∧
    ¬ zero.Identical negativeZero ∧ nan.Identical nan ∧ ¬ nan.Identical negativeNan := by
  intro zero negativeZero nan negativeNan calls ks
  have hks : calls.map ChunkCall.shared? = ks.map some := rfl
  have hpool : ks.eraseDups = [zero, negativeZero, nan, negativeNan, .text "0"] := by decide +kernel
  have hl : ks.eraseDups.length ≤ 16777216 := by rw [hpool]; decide
  obtain ⟨hid, -, hshared⟩ := pooled_constants calls
  obtain ⟨hconstants, -, hanswers⟩ := hshared ks hks
  obtain ⟨hindex, -⟩ := hanswers hl
  refine ⟨hks, hl, hindex.trans ?_, hconstants.trans hpool, fun h => ?_, (hid _ _).mpr rfl,
    fun h => ?_⟩
  · rw [hpool]
    decide +kernel
  · exact absurd ((hid _ _).mp h) (by decide +kernel)
  · exact absurd ((hid _ _).mp h) (by decide +kernel)

end Chunk

end ExprMachine
