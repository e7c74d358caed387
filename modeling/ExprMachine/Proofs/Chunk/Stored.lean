import ExprMachine.Chunk.Stored
import ExprMachine.Proofs.Json.Accuracy
import ExprMachine.Proofs.Json.Documents

/-! Chunks that are stored and loaded again. All but the numbers is as it was. A number is read
from its shortest digits in double arithmetic, which may miss it. -/

namespace ExprMachine

open Magnitude

namespace Json

theorem toString_eq_text (n : Nat) :
    toString n = Layout.signed false (Numeral.text ⟨Nat.toDigits 10 n, [], none⟩) := by
  rw [Nat.toString_eq_ofList_toDigits, Layout.signed, if_neg Bool.false_ne_true, Numeral.text,
    if_pos rfl, Numeral.exponentText, List.append_nil, List.append_nil]

theorem proper_nat (n : Nat) : Proper (.number (toString n)) := by
  rw [toString_eq_text]
  refine .number ⟨Nat.toDigits_ne_nil, allDigits_toDigits n, ?_,
    fun c hc => absurd hc List.not_mem_nil⟩ false
  by_cases h : n = 0
  · subst h
    exact .inl rfl
  · exact .inr (head?_toDigits h)

theorem toNat?_toString {n limit : Nat} (h : n < limit) :
    toNat? limit (.number (toString n)) = some n := by
  have hdigits : (Nat.toDigits 10 n).all Char.isDigit = true :=
    List.all_eq_true.mpr (allDigits_toDigits n)
  rw [toNat?, Nat.toString_eq_ofList_toDigits]
  simp only [String.toList_ofList, digitsValue_toDigits, hdigits, h, and_self, if_true]

theorem toFloat?_signed {n : Numeral} (hn : n.Valid) (negative : Bool) :
    toFloat? (.number (Layout.signed negative n.text)) =
      (magnitude? n.text).map fun x => if negative then -x else x := by
  cases negative with
  | true =>
    simp only [toFloat?, Layout.signed, if_true, String.toList_ofList]
  | false =>
    obtain ⟨c, cs, hcs⟩ := List.exists_cons_of_ne_nil hn.nonempty
    have hdigit := hn.whole c (hcs ▸ List.mem_cons_self)
    simp only [toFloat?, Layout.signed, Bool.false_eq_true, if_false, String.toList_ofList,
      Option.map_id']
    split
    · next heq =>
      rw [Numeral.text, hcs, List.cons_append] at heq
      rw [(List.cons.inj heq).1] at hdigit
      cases hdigit
    · rfl

end Json

namespace Constant

variable {x : Float} {m s : Nat}

theorem storedNumber_eq (h : ofFloat x = .finite m s) : storedNumber x =
    .number (Layout.signed (isNegative x) (Numeral.ofMagnitude m s).text) := by
  rw [storedNumber, h, ← Numeral.text_ofMagnitude]

theorem proper_toJson (k : Constant) : k.toJson.Proper := by
  cases k with
  | text t =>
    refine .object fun member hm => ?_
    rw [List.mem_singleton.mp hm]
    exact .string _
  | number bits =>
    refine .object fun member hm => ?_
    rw [List.mem_singleton.mp hm]
    dsimp only
    cases h : ofFloat (.ofBits bits) with
    | finite m s =>
      rw [storedNumber_eq h]
      exact .number (Numeral.valid_ofMagnitude (canonical_of_ofBits h).1).1 _
    | nan =>
      rw [storedNumber, h]
      exact .null
    | infinite =>
      rw [storedNumber, h]
      exact .null

/-- What is not finite is stored as null, which is no number. -/
theorem toFloat?_storedNumber_none (h : ∀ m s, ofFloat x ≠ .finite m s) :
    (storedNumber x).toFloat? = none := by
  unfold storedNumber
  split
  · next m s heq => exact absurd heq (h m s)
  · rfl

theorem storedNumber_ne_null_iff : storedNumber x ≠ .null ↔ ∃ m s, ofFloat x = .finite m s := by
  unfold storedNumber
  split
  · next m s heq => exact iff_of_true nofun ⟨m, s, heq⟩
  · next hne => exact iff_of_false (fun h => h rfl) fun ⟨m, s, heq⟩ => hne m s heq

theorem toFloat?_storedNumber (h : ofFloat x = .finite m s) :
    ∃ y, (storedNumber x).toFloat? = some y ∧
      (∃ m' s', Holds y (isNegative x) m' s' ∧ (finite m' s').Near (finite m s)) ∧
      ((Numeral.ofMagnitude m s).Short → y = x) := by
  have hx := holds_of_finite h
  have hvalid := (Numeral.valid_ofMagnitude hx.canonical).1
  have hsame {y : Float} (hy : Holds y (isNegative x) m s) : y = x := by
    rw [← Float.ofBits_toBits y, ← Float.ofBits_toBits x,
      UInt64.toNat_inj.mp (hy.bits.trans hx.bits.symm)]
  have hsigned {z : Float} {m' s' : Nat} (hz : Holds z false m' s') :
      Holds (if isNegative x then -z else z) (isNegative x) m' s' := by
    cases isNegative x with
    | true => exact hz.neg
    | false => exact hz
  obtain ⟨z, hread, ⟨m', s', hz⟩, hshort⟩ := Numeral.magnitude?_ofMagnitude hx.canonical
  have hnear := Numeral.near_ofMagnitude hx.canonical hread hz
  refine ⟨_, ?_, ⟨m', s', hsigned hz, hnear⟩, fun hn => hsame (hsigned ⟨hx.canonical, ?_⟩)⟩
  · rw [storedNumber_eq h, Json.toFloat?_signed hvalid, hread, Option.map_some]
  · rw [hshort hn, signBits, if_neg Bool.false_ne_true, Nat.zero_add]

end Constant

theorem mapM_map_eq_some {α β γ : Type} {f : α → β} {g : β → Option γ} {r : α → γ} {l : List α}
    (h : ∀ a ∈ l, g (f a) = some (r a)) : (l.map f).mapM g = some (l.map r) := by
  induction l with
  | nil => rfl
  | cons a l ih =>
    rw [List.map_cons, List.mapM_cons, h a List.mem_cons_self,
      ih fun b hb => h b (List.mem_cons_of_mem a hb)]
    rfl

/-- The numbers of a run are words. -/
def Run.Fits (r : Run) : Prop := r.line < Word.size ∧ r.count < Word.size

theorem Run.ofJson?_toJson {r : Run} (h : r.Fits) : Run.ofJson? r.toJson = some r := by
  simp only [Run.ofJson?, Run.toJson, Json.toNat?_toString h.1, Json.toNat?_toString h.2]

theorem Run.proper_toJson (r : Run) : r.toJson.Proper := by
  refine .array fun item hitem => ?_
  simp only [List.mem_cons, List.not_mem_nil, or_false] at hitem
  rcases hitem with rfl | rfl
  · exact Json.proper_nat _
  · exact Json.proper_nat _

namespace LineTable

def Fits (t : LineTable) : Prop := ∀ r ∈ t.runs, r.Fits

theorem ofJson?_toJson {t : LineTable} (h : t.Fits) : ofJson? t.toJson = some t := by
  have hrecord : (toJson t).fullRecord? ["runs"] =
      some [.array (t.runs.toList.map Run.toJson)] := rfl
  have hruns : (t.runs.toList.map Run.toJson).mapM Run.ofJson? = some (t.runs.toList.map id) :=
    mapM_map_eq_some fun r hr => Run.ofJson?_toJson (h r (Array.mem_toList_iff.mp hr))
  rw [ofJson?, hrecord]
  simp [Json.asArray?, hruns]

theorem proper_toJson (t : LineTable) : t.toJson.Proper := by
  refine .object fun member hm => ?_
  rw [List.mem_singleton.mp hm]
  refine .array fun item hitem => ?_
  obtain ⟨r, -, rfl⟩ := List.mem_map.mp hitem
  exact r.proper_toJson

end LineTable

namespace Chunk

theorem proper_toJson (c : Chunk) : c.toJson.Proper := by
  refine .object fun member hm => ?_
  simp only [List.mem_cons, List.not_mem_nil, or_false] at hm
  rcases hm with rfl | rfl | rfl
  · refine .array fun item hitem => ?_
    obtain ⟨b, -, rfl⟩ := List.mem_map.mp hitem
    exact Json.proper_nat _
  · refine .array fun item hitem => ?_
    obtain ⟨k, -, rfl⟩ := List.mem_map.mp hitem
    exact k.proper_toJson
  · exact c.lines.proper_toJson

/-- The constants are all that may not be read as they were. -/
theorem ofJson?_toJson {c : Chunk} (h : c.lines.Fits) : ofJson? c.toJson =
    ((c.constants.toList.map Constant.toJson).mapM Constant.ofJson?).map fun constants =>
      { c with constants := constants.toArray } := by
  have hrecord : (toJson c).fullRecord? ["code", "constants", "lines"] =
      some [.array (c.code.toList.map fun b => .number (toString b.toNat)),
        .array (c.constants.toList.map Constant.toJson), c.lines.toJson] := rfl
  have hcode : (c.code.toList.map fun b => Json.number (toString b.toNat)).mapM (Json.toNat? 256) =
      some (c.code.toList.map UInt8.toNat) :=
    mapM_map_eq_some fun b _ => Json.toNat?_toString b.toNat_lt
  have hbytes : ((c.code.toList.map UInt8.toNat).map UInt8.ofNat).toArray = c.code := by
    have hsame : UInt8.ofNat ∘ UInt8.toNat = id := funext fun b => UInt8.ofNat_toNat
    rw [List.map_map, hsame, List.map_id, Array.toArray_toList]
  rw [ofJson?, hrecord]
  simp only [Json.asArray?, hcode, Option.bind_eq_bind, Option.bind_some,
    LineTable.ofJson?_toJson h, hbytes]
  cases (c.constants.toList.map Constant.toJson).mapM Constant.ofJson? <;> rfl

theorem load?_write {s : Spacing} (hs : s.Blank) (c : Chunk) :
    load? (c.toJson.write s) = ofJson? c.toJson := by
  rw [load?, Json.parse?_write hs c.proper_toJson]

end Chunk

namespace Constant

/-- What a constant may be read back as: a number as a finite one of the same sign that is near
it, and is the number itself if its digits are few. -/
inductive Rereads : Constant → Constant → Prop
  | text (t : String) : Rereads (.text t) (.text t)
  | number {bits : UInt64} {y : Float} {m s m' s' : Nat}
      (hx : ofFloat (.ofBits bits) = .finite m s) (hy : ofFloat y = .finite m' s')
      (read : (storedNumber (.ofBits bits)).toFloat? = some y)
      (sign : isNegative y = isNegative (.ofBits bits)) (near : (finite m' s').Near (finite m s))
      (same : (Numeral.ofMagnitude m s).Short → y.toBits = bits) :
      Rereads (.number bits) (.number y.toBits)

/-- The double of these bits is finite. -/
def IsFinite (bits : UInt64) : Prop := ∃ m s, ofFloat (.ofBits bits) = .finite m s

/-- A finite double has no other bits. -/
theorem toBits_eq_iff {bits : UInt64} (h : IsFinite bits) {y : Float} :
    y.toBits = bits ↔ y = .ofBits bits := by
  obtain ⟨m, s, hx⟩ := h
  constructor
  · rintro rfl
    exact y.ofBits_toBits.symm
  · rintro rfl
    exact toBits_ofBits (by simp [hx])

theorem ofJson?_toJson_number (bits : UInt64) : ofJson? (number bits).toJson =
    (storedNumber (.ofBits bits)).toFloat?.map fun y => number y.toBits := by
  rw [ofJson?.eq_def, toJson]
  rfl

theorem exists_rereads (k : Constant) (h : ∀ bits, k = number bits → IsFinite bits) :
    ∃ k', ofJson? k.toJson = some k' ∧ k.Rereads k' := by
  cases k with
  | text t => exact ⟨.text t, rfl, .text t⟩
  | number bits =>
    have hfinite := h bits rfl
    obtain ⟨m, s, hx⟩ := id hfinite
    obtain ⟨y, hread, ⟨m', s', hy, hnear⟩, hsame⟩ := toFloat?_storedNumber hx
    refine ⟨.number y.toBits, ?_, .number hx hy.ofFloat hread hy.isNegative hnear fun hshort =>
      (toBits_eq_iff hfinite).mpr (hsame hshort)⟩
    rw [ofJson?_toJson_number, hread, Option.map_some]

theorem mapM_rereads {constants : List Constant}
    (h : ∀ bits, number bits ∈ constants → IsFinite bits) :
    ∃ constants', (constants.map toJson).mapM ofJson? = some constants' ∧
      List.Forall₂ Rereads constants constants' := by
  induction constants with
  | nil => exact ⟨[], rfl, .nil⟩
  | cons k constants ih =>
    obtain ⟨k', hread, hk⟩ := exists_rereads k fun b hb => h b (hb ▸ List.mem_cons_self)
    obtain ⟨constants', hreads, hrest⟩ := ih fun b hb => h b (List.mem_cons_of_mem k hb)
    refine ⟨k' :: constants', ?_, .cons hk hrest⟩
    rw [List.map_cons, List.mapM_cons, hread, hreads]
    rfl

/-- The constants load exactly if the numbers are finite. -/
theorem mapM_ofJson?_iff {constants : List Constant} :
    (∃ constants', (constants.map toJson).mapM ofJson? = some constants') ↔
      ∀ bits, number bits ∈ constants → IsFinite bits := by
  constructor
  · rintro ⟨constants', h⟩ bits hbits
    by_contra hnone
    have hread : ofJson? (number bits).toJson = none := by
      rw [ofJson?_toJson_number,
        toFloat?_storedNumber_none fun m s heq => hnone ⟨m, s, heq⟩, Option.map_none]
    obtain ⟨before, after, rfl⟩ := List.append_of_mem hbits
    rw [List.map_append, List.map_cons, List.mapM_append, List.mapM_cons, hread] at h
    cases hbefore : (before.map toJson).mapM ofJson? <;> rw [hbefore] at h <;> cases h
  · intro h
    obtain ⟨constants', hreads, -⟩ := mapM_rereads h
    exact ⟨constants', hreads⟩

theorem Rereads.eq_iff {k k' : Constant} (h : k.Rereads k') :
    k' = k ↔ ∀ bits, k = .number bits →
      (storedNumber (.ofBits bits)).toFloat? = some (.ofBits bits) := by
  cases h with
  | text t => simp
  | @number bits y m s m' s' hx hy read sign near same =>
    rw [number.injEq, toBits_eq_iff ⟨m, s, hx⟩, ← Option.some.injEq, ← read]
    constructor
    · rintro heq b ⟨⟩
      exact heq
    · intro hself
      exact hself bits rfl

theorem forall₂_eq_iff {constants constants' : List Constant}
    (h : List.Forall₂ Rereads constants constants') : constants' = constants ↔
      ∀ bits, number bits ∈ constants →
        (storedNumber (.ofBits bits)).toFloat? = some (.ofBits bits) := by
  induction h with
  | nil => simp
  | @cons k k' ks ks' hk hrest ih =>
    rw [List.cons.injEq, hk.eq_iff, ih]
    simp only [List.mem_cons]
    constructor
    · rintro ⟨hhead, htail⟩ b (heq | hmem)
      · exact hhead b heq.symm
      · exact htail b hmem
    · intro hall
      exact ⟨fun b heq => hall b (.inl heq.symm), fun b hmem => hall b (.inr hmem)⟩

end Constant

namespace Chunk

theorem exists_load?_iff {s : Spacing} (hs : s.Blank) {c : Chunk} (hlines : c.lines.Fits) :
    (∃ c', load? (c.toJson.write s) = some c') ↔
      ∀ bits, .number bits ∈ c.constants → Constant.IsFinite bits := by
  rw [load?_write hs, ofJson?_toJson hlines]
  simp only [← Array.mem_toList_iff, ← Constant.mapM_ofJson?_iff]
  cases (c.constants.toList.map Constant.toJson).mapM Constant.ofJson? <;> simp

/-- A chunk of finite numbers loads from either text it is stored as, and all but its numbers is
as it was. The numbers are near what they were, and the chunk is the same exactly if each of them
is read back as itself. -/
theorem load?_stored (c : Chunk)
    (hfinite : ∀ bits, .number bits ∈ c.constants → ∃ m s, ofFloat (.ofBits bits) = .finite m s)
    (hlines : c.lines.Fits) : ∃ constants : Array Constant,
      load? c.store = some { c with constants := constants } ∧
      load? c.storeIndented = some { c with constants := constants } ∧
      List.Forall₂ Constant.Rereads c.constants.toList constants.toList ∧
      (load? c.store = some c ↔
        ∀ bits, .number bits ∈ c.constants →
          (Constant.storedNumber (.ofBits bits)).toFloat? = some (.ofBits bits)) := by
  have hpool : ∀ bits, .number bits ∈ c.constants.toList → Constant.IsFinite bits :=
    fun bits hbits => hfinite bits (Array.mem_toList_iff.mp hbits)
  obtain ⟨constants, hread, hrereads⟩ := Constant.mapM_rereads hpool
  have hjson : ofJson? c.toJson = some { c with constants := constants.toArray } := by
    rw [ofJson?_toJson hlines, hread, Option.map_some]
  have hstore : load? c.store = some { c with constants := constants.toArray } := by
    rw [store, load?_write Spacing.blank_compact, hjson]
  have hindented : load? c.storeIndented = some { c with constants := constants.toArray } := by
    rw [storeIndented, load?_write Spacing.blank_indented, hjson]
  refine ⟨constants.toArray, hstore, hindented, hrereads, ?_⟩
  have hsame : ({ c with constants := constants.toArray } : Chunk) = c ↔
      constants = c.constants.toList := by
    constructor
    · intro heq
      exact congrArg (fun c : Chunk => c.constants.toList) heq
    · intro heq
      rw [heq, Array.toArray_toList]
  rw [hstore, Option.some.injEq, hsame, Constant.forall₂_eq_iff hrereads]
  simp only [Array.mem_toList_iff]

theorem load?_stored_tenth :
    let tenth := (Decimal.toFloat ⟨1, -1⟩ true).toBits
    let c : Chunk := ⟨#[1, 0], #[.text "\n", .number tenth], ⟨#[⟨0, 0⟩, ⟨1, 2⟩]⟩⟩
    load? c.store = some c := by
  intro tenth c
  have hlines : LineTable.Fits ⟨#[⟨0, 0⟩, ⟨1, 2⟩]⟩ := by
    unfold LineTable.Fits Run.Fits
    decide
  have hnumber {bits : UInt64} (hbits : .number bits ∈ c.constants) : bits = tenth := by
    simpa [c] using hbits
  have hfinite : ofFloat (.ofBits tenth) = .finite 7205759403792794 1018 := by decide +kernel
  obtain ⟨_, _, _, _, hsame⟩ := load?_stored c
    (fun bits hbits => ⟨_, _, hnumber hbits ▸ hfinite⟩) hlines
  refine hsame.mpr fun bits hbits => ?_
  rw [hnumber hbits]
  decide +kernel

theorem load?_store_inexact :
    let x := Decimal.toFloat ⟨31245270191439438, -15⟩ false
    let y := Decimal.toFloat ⟨3124527019143944, -14⟩ false
    load? (⟨#[], #[.number x.toBits], .empty⟩ : Chunk).store =
      some ⟨#[], #[.number y.toBits], .empty⟩ ∧ x.toBits ≠ y.toBits ∧ x ≠ y := by
  decide +kernel

end Chunk

end ExprMachine
