import ExprMachine.Proofs.Chunk.Lines
import Mathlib.Data.List.Dedup
import Mathlib.Data.List.Perm.Subperm

/-! What writing to a chunk adds to it, and the constants that are interned on the way. -/

namespace ExprMachine

theorem Constant.same_iff {a b : Constant} : a.same b = true ↔ a = b := by
  cases a <;> cases b <;> simp [same]

theorem getElem?_of_isPrefix {α : Type} {xs ys : List α} (h : xs <+: ys) {k : Nat} {a : α}
    (hk : xs[k]? = some a) : ys[k]? = some a := by
  obtain ⟨zs, rfl⟩ := h
  rw [List.getElem?_append_left (List.getElem?_eq_some_iff.mp hk).1, hk]

namespace Chunk

/-- The chunk `d` goes on where `c` ends. -/
structure Extends (c d : Chunk) : Prop where
  code : c.code.toList <+: d.code.toList
  constants : c.constants.toList <+: d.constants.toList
  lines : c.lines.byteLines <+: d.lines.byteLines

namespace Extends

theorem refl (c : Chunk) : c.Extends c :=
  ⟨List.prefix_rfl, List.prefix_rfl, List.prefix_rfl⟩

theorem trans {c d e : Chunk} (h : c.Extends d) (h' : d.Extends e) : c.Extends e :=
  ⟨h.code.trans h'.code, h.constants.trans h'.constants, h.lines.trans h'.lines⟩

theorem code_at {c d : Chunk} (h : c.Extends d) {k : Nat} {b : UInt8}
    (hk : c.code[k]? = some b) : d.code[k]? = some b := by
  rw [← Array.getElem?_toList] at hk ⊢
  exact getElem?_of_isPrefix h.code hk

theorem constant_at {c d : Chunk} (h : c.Extends d) {k : Nat} {a : Constant}
    (hk : c.constants[k]? = some a) : d.constants[k]? = some a := by
  rw [← Array.getElem?_toList] at hk ⊢
  exact getElem?_of_isPrefix h.constants hk

theorem line_at {c d : Chunk} (h : c.Extends d) {k line : Nat}
    (hk : c.lines.byteLines[k]? = some line) : d.lines.byteLines[k]? = some line :=
  getElem?_of_isPrefix h.lines hk

end Extends

theorem code_writeAll (c : Chunk) (bytes : List UInt8) (line : Nat) :
    (c.writeAll bytes line).code.toList = c.code.toList ++ bytes := by
  induction bytes generalizing c with
  | nil => simp [writeAll]
  | cons b bytes ih =>
    have hb := ih (c.write b line)
    simp only [write, Array.toList_push, List.append_assoc] at hb
    exact hb

theorem lines_writeAll (c : Chunk) (bytes : List UInt8) (line : Nat) :
    (c.writeAll bytes line).lines.byteLines =
      c.lines.byteLines ++ List.replicate bytes.length line := by
  induction bytes generalizing c with
  | nil => simp [writeAll]
  | cons b bytes ih =>
    have hb := ih (c.write b line)
    simp only [write, LineTable.byteLines_push, List.append_assoc] at hb
    exact hb

theorem constants_writeAll (c : Chunk) (bytes : List UInt8) (line : Nat) :
    (c.writeAll bytes line).constants = c.constants := by
  induction bytes generalizing c with
  | nil => rfl
  | cons b bytes ih => exact ih (c.write b line)

theorem extends_writeAll (c : Chunk) (bytes : List UInt8) (line : Nat) :
    c.Extends (c.writeAll bytes line) where
  code := by rw [code_writeAll]; exact List.prefix_append _ _
  constants := (congrArg Array.toList (constants_writeAll c bytes line)).symm ▸ List.prefix_rfl
  lines := by rw [lines_writeAll]; exact List.prefix_append _ _

theorem intern_cases (c : Chunk) (k : Constant) :
    (∃ i, c.intern k = (c, i) ∧ c.constants[i]? = some k) ∨
      (k ∉ c.constants.toList ∧
        c.intern k = ({ c with constants := c.constants.push k }, c.constants.size)) := by
  unfold intern
  split
  · next i hi =>
    obtain ⟨hlt, hs, -⟩ := Array.findIdx?_eq_some_iff_getElem.mp hi
    exact .inl ⟨i, rfl, by rw [Array.getElem?_eq_getElem hlt, Constant.same_iff.mp hs]⟩
  · next hn =>
    refine .inr ⟨?_, rfl⟩
    intro hk
    have hs := Array.findIdx?_eq_none_iff.mp hn k (Array.mem_toList_iff.mp hk)
    rw [Constant.same_iff.mpr rfl] at hs
    cases hs

theorem intern_spec {c d : Chunk} {k : Constant} {i : Nat} (h : c.intern k = (d, i)) :
    c.Extends d ∧ d.code = c.code ∧ d.lines = c.lines ∧ d.constants[i]? = some k := by
  rcases c.intern_cases k with ⟨j, he, hk⟩ | ⟨-, he⟩
  · rw [he] at h
    cases h
    exact ⟨.refl c, rfl, rfl, hk⟩
  · rw [he] at h
    cases h
    refine ⟨⟨List.prefix_rfl, ?_, List.prefix_rfl⟩, rfl, rfl, Array.getElem?_push_size⟩
    rw [Array.toList_push]
    exact List.prefix_append _ _

structure PoolWithin (c : Chunk) (ks : List Constant) : Prop where
  nodup : c.constants.toList.Nodup
  subset : c.constants.toList ⊆ ks

theorem poolWithin_empty (ks : List Constant) : empty.PoolWithin ks :=
  ⟨List.nodup_nil, List.nil_subset _⟩

theorem PoolWithin.size_le {c : Chunk} {ks : List Constant} (h : c.PoolWithin ks) :
    c.constants.size ≤ ks.length := by
  rw [← Array.length_toList]
  exact (h.nodup.subperm h.subset).length_le

theorem PoolWithin.intern {c d : Chunk} {ks : List Constant} {k : Constant} {i : Nat}
    (h : c.PoolWithin ks) (hk : k ∈ ks) (hi : c.intern k = (d, i)) : d.PoolWithin ks := by
  rcases c.intern_cases k with ⟨j, he, -⟩ | ⟨hn, he⟩
  · rw [he] at hi
    cases hi
    exact h
  · rw [he] at hi
    cases hi
    constructor
    · rw [Array.toList_push, ← List.concat_eq_append]
      exact h.nodup.concat hn
    · rw [Array.toList_push]
      exact List.append_subset.mpr ⟨h.subset, by simpa using hk⟩

end Chunk

end ExprMachine
