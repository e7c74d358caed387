import Mathlib.Data.List.Forall2
import ExprMachine.Json.Document
import ExprMachine.Proofs.Json.Numerals

/-! Records in JSON as what they give for each of their members, and numbers that are written
with digits only. -/

namespace ExprMachine

theorem mapM_eq_some_iff {α β : Type} {f : α → Option β} {l : List α} {l' : List β} :
    l.mapM f = some l' ↔ List.Forall₂ (fun a b => f a = some b) l l' := by
  induction l generalizing l' with
  | nil =>
    rw [List.mapM_nil, List.forall₂_nil_left_iff]
    exact ⟨fun h => (Option.some.inj h).symm, fun h => h ▸ rfl⟩
  | cons a l ih =>
    rw [List.mapM_cons, List.forall₂_cons_left_iff]
    simp only [Option.bind_eq_bind, Option.bind_eq_some_iff, ih, Option.pure_def,
      Option.some.injEq]
    constructor
    · rintro ⟨b, hb, rest, hrest, rfl⟩
      exact ⟨b, rest, hb, hrest, rfl⟩
    · rintro ⟨b, rest, hb, hrest, rfl⟩
      exact ⟨b, hb, rest, hrest, rfl⟩

theorem exists_of_mapM {α β : Type} {f : α → Option β} {l : List α} {l' : List β}
    (h : l.mapM f = some l') {b : β} (hb : b ∈ l') : ∃ a, f a = some b := by
  have hf := mapM_eq_some_iff.mp h
  induction hf with
  | nil => cases hb
  | cons ha _ ih =>
    rcases List.mem_cons.mp hb with rfl | hb
    · exact ⟨_, ha⟩
    · exact ih (mapM_eq_some_iff.mpr ‹_›) hb

namespace Json

/-- What a record gives for a member: an object by its name, an array by its place. -/
def given? (name : String) (place : Nat) : Json → Option Json
  | object members => members.lookup (some name)
  | array items => items[place]?
  | _ => none

/-- All names in an object are texts and none of its members is there twice, and an array has no
more items than there are members. -/
def IsRecord (names : List String) : Json → Prop
  | object members => (∀ member ∈ members, ∃ name, member.1 = some name) ∧
    ∀ name ∈ names, (members.map Prod.fst).count (some name) ≤ 1
  | array items => items.length ≤ names.length
  | _ => False

theorem lookup_eq_head? (members : List (Option String × Json)) (name : Option String) :
    members.lookup name = (members.filter (·.1 == name)).head?.map Prod.snd := by
  induction members with
  | nil => rfl
  | cons member members ih =>
    obtain ⟨key, value⟩ := member
    rw [List.lookup_cons, List.filter_cons, BEq.comm]
    cases hkey : key == name with
    | true => rfl
    | false => simpa using ih

theorem member?_iff {members : List (Option String × Json)} {name : String}
    {given : Option Json} : member? members name = some given ↔
      (members.map Prod.fst).count (some name) ≤ 1 ∧ members.lookup (some name) = given := by
  have hcount : (members.map Prod.fst).count (some name) =
      (members.filter (·.1 == some name)).length := by
    rw [List.count_eq_countP, List.countP_map, List.countP_eq_length_filter]
    rfl
  rw [hcount, lookup_eq_head?, member?]
  generalize members.filter (·.1 == some name) = found
  match found with
  | [] => exact ⟨fun h => ⟨Nat.zero_le 1, Option.some.inj h⟩, fun h => h.2 ▸ rfl⟩
  | [_] => exact ⟨fun h => ⟨Nat.le_refl 1, Option.some.inj h⟩, fun h => h.2 ▸ rfl⟩
  | _ :: _ :: _ => exact ⟨nofun, fun h => absurd h.1 (by simp)⟩

theorem padded_eq {names : List String} {items : List Json} (h : items.length ≤ names.length) :
    items.map some ++ List.replicate (names.length - items.length) none =
      names.zipIdx.map fun member => items[member.2]? := by
  refine List.ext_getElem (by simp; omega) fun place hplace _ => ?_
  rw [List.getElem_map, List.getElem_zipIdx, Nat.zero_add]
  by_cases hitem : place < items.length
  · rw [List.getElem_append_left (by simpa using hitem), List.getElem_map,
      List.getElem?_eq_getElem hitem]
  · rw [List.getElem_append_right (by simpa using hitem), List.getElem_replicate,
      List.getElem?_eq_none (by omega)]

theorem record?_iff {names : List String} {json : Json} {values : List (Option Json)} :
    json.record? names = some values ↔ json.IsRecord names ∧
      values = names.zipIdx.map fun member => json.given? member.1 member.2 := by
  cases json with
  | object members =>
    have hmap : names.zipIdx.map (fun member => given? member.1 member.2 (object members)) =
        names.map fun name => members.lookup (some name) := by
      rw [← List.zipIdx_map_fst 0 names, List.map_map, List.zipIdx_map_fst]
      rfl
    have hnames : members.all (·.1.isSome) = true ↔
        ∀ member ∈ members, ∃ name, member.1 = some name := by
      simp only [List.all_eq_true, Option.isSome_iff_exists]
    rw [hmap, IsRecord, record?, ← hnames, and_assoc]
    split
    · next h =>
      rw [mapM_eq_some_iff, eq_comm (a := values), ← List.forall₂_eq_eq_eq,
        List.forall₂_map_left_iff, ← List.forall₂_and_left]
      simp only [member?_iff, h, true_and]
    · next h => simp [h]
  | array items =>
    have hmap : names.zipIdx.map (fun member => given? member.1 member.2 (array items)) =
        names.zipIdx.map fun member => items[member.2]? := rfl
    rw [hmap, IsRecord, record?]
    split
    · next h => simp only [h, true_and, padded_eq h, Option.some.injEq, eq_comm]
    · next h => simp [h]
  | _ => simp [record?, IsRecord]

/-- A number that is written with digits only. -/
def Writes (json : Json) (n : Nat) : Prop :=
  ∃ text, json = number text ∧ AllDigits text.toList ∧ Nat.ofDigitChars 10 text.toList 0 = n

theorem toNat?_iff {limit n : Nat} {json : Json} :
    json.toNat? limit = some n ↔ json.Writes n ∧ n < limit := by
  cases json with
  | number text =>
    simp only [toNat?, digitsValue_eq_ofDigitChars, List.all_eq_true]
    split
    · next h =>
      constructor
      · rintro ⟨⟩
        exact ⟨⟨text, rfl, h.1, rfl⟩, h.2⟩
      · rintro ⟨⟨_, ⟨⟩, -, rfl⟩, -⟩
        rfl
    · next h =>
      refine ⟨nofun, ?_⟩
      rintro ⟨⟨_, ⟨⟩, hdigits, rfl⟩, hlt⟩
      exact absurd ⟨hdigits, hlt⟩ h
  | _ => simp [toNat?, Writes]

theorem writes_digits {digits : List Char} (h : AllDigits digits) {n : Nat} :
    (number (String.ofList digits)).Writes n ↔ Nat.ofDigitChars 10 digits 0 = n := by
  constructor
  · rintro ⟨_, ⟨⟩, -, hn⟩
    rwa [String.toList_ofList] at hn
  · intro hn
    exact ⟨String.ofList digits, rfl, by rwa [String.toList_ofList], by rwa [String.toList_ofList]⟩

end Json

end ExprMachine
