import ExprMachine.Proofs.Json.Scalars

/-! A document that is written on one line or with a line for each item reads back. Values are
read in front of whatever follows them, and the bound of the reader is the length of the text. -/

namespace ExprMachine

/-- Only white space stands between the tokens, but for the colon. -/
structure Spacing.Blank (s : Spacing) : Prop where
  item : ∀ level, ∀ c ∈ s.item level, Json.isSpace c = true
  colon : ∃ space, s.colon = ':' :: space ∧ ∀ c ∈ space, Json.isSpace c = true

theorem Spacing.blank_compact : Spacing.compact.Blank :=
  ⟨fun _ _ h => absurd h List.not_mem_nil, [], rfl, fun _ h => absurd h List.not_mem_nil⟩

theorem Spacing.blank_indented : Spacing.indented.Blank := by
  refine ⟨fun level c hc => ?_, [' '], rfl, fun c hc => ?_⟩
  · rcases List.mem_cons.mp hc with rfl | hc
    · rfl
    · rw [List.eq_of_mem_replicate hc]
      rfl
  · rw [List.mem_singleton.mp hc]
    rfl

namespace Json

/-- A document whose numbers are numerals. -/
inductive Proper : Json → Prop
  | null : Proper .null
  | boolean (b : Bool) : Proper (.boolean b)
  | number {n : Numeral} (hn : n.Valid) (negative : Bool) :
      Proper (.number (Layout.signed negative n.text))
  | string (text : Option String) : Proper (.string text)
  | array {items : List Json} (h : ∀ item ∈ items, Proper item) : Proper (.array items)
  | object {members : List (Option String × Json)} (h : ∀ m ∈ members, Proper m.2) :
      Proper (.object members)

variable {s : Spacing}

mutual

theorem le_length_render (s : Spacing) (level : Nat) (json : Json) (rest : List Char) :
    rest.length ≤ (render s level json rest).length := by
  cases json with
  | null => exact (List.suffix_append _ rest).length_le
  | boolean b => cases b <;> exact (List.suffix_append _ rest).length_le
  | number text => exact (List.suffix_append _ rest).length_le
  | string text => exact (List.suffix_append _ rest).length_le
  | array items =>
    cases items with
    | nil => exact (List.suffix_append [_, _] rest).length_le
    | cons item items =>
      have hitem := le_length_render s (level + 1) item
        (renderItems s level items (s.item level ++ ']' :: rest))
      have hitems := le_length_renderItems s level items (s.item level ++ ']' :: rest)
      simp only [render, List.length_append, List.length_cons] at hitem hitems ⊢
      omega
  | object members =>
    cases members with
    | nil => exact (List.suffix_append [_, _] rest).length_le
    | cons member members =>
      obtain ⟨name, value⟩ := member
      have hvalue := le_length_render s (level + 1) value
        (renderMembers s level members (s.item level ++ '\x7d' :: rest))
      have hmembers := le_length_renderMembers s level members (s.item level ++ '\x7d' :: rest)
      simp only [render, renderMember, List.length_append, List.length_cons] at hvalue hmembers ⊢
      omega

theorem le_length_renderItems (s : Spacing) (level : Nat) (items : List Json) (rest : List Char) :
    rest.length ≤ (renderItems s level items rest).length := by
  cases items with
  | nil => simp [renderItems]
  | cons item items =>
    have hitem := le_length_render s (level + 1) item (renderItems s level items rest)
    have hitems := le_length_renderItems s level items rest
    simp only [renderItems, List.length_append, List.length_cons]
    omega

theorem le_length_renderMembers (s : Spacing) (level : Nat)
    (members : List (Option String × Json)) (rest : List Char) :
    rest.length ≤ (renderMembers s level members rest).length := by
  cases members with
  | nil => simp [renderMembers]
  | cons member members =>
    obtain ⟨name, value⟩ := member
    have hvalue := le_length_render s (level + 1) value (renderMembers s level members rest)
    have hmembers := le_length_renderMembers s level members rest
    simp only [renderMembers, renderMember, List.length_append, List.length_cons]
    omega

end

theorem skipSpace_append {space : List Char} (h : ∀ c ∈ space, isSpace c = true)
    (rest : List Char) : skipSpace (space ++ rest) = skipSpace rest :=
  List.dropWhile_append_of_pos h

theorem skipSpace_cons {c : Char} (h : isSpace c = false) (rest : List Char) :
    skipSpace (c :: rest) = c :: rest := by
  rw [skipSpace, List.dropWhile_cons, h]
  rfl

theorem value?_space (bound : Nat) {space : List Char} (h : ∀ c ∈ space, isSpace c = true)
    (rest : List Char) : value? (bound + 1) (space ++ rest) = value? (bound + 1) rest := by
  rw [value?, value?, skipSpace_append h]

theorem ends_cons {c : Char} (h : isSpace c = true ∨ c ∈ [',', ']', '\x7d']) (rest : List Char) :
    Ends (c :: rest) := by
  intro d hd
  obtain rfl : c = d := Option.some.inj hd
  simp only [isSpace, Bool.or_eq_true, beq_iff_eq, List.mem_cons, List.not_mem_nil, or_false] at h
  rcases h with (((rfl | rfl) | rfl) | rfl) | rfl | rfl | rfl <;> decide

theorem ends_space {space : List Char} (h : ∀ c ∈ space, isSpace c = true) {rest : List Char}
    (hrest : Ends rest) : Ends (space ++ rest) := by
  cases space with
  | nil => exact hrest
  | cons c space => exact ends_cons (.inl (h c List.mem_cons_self)) _

theorem ends_renderItems (items : List Json) {level : Nat} {rest : List Char} (h : Ends rest) :
    Ends (renderItems s level items rest) := by
  cases items with
  | nil => exact h
  | cons item items => exact ends_cons (.inr (by decide)) _

theorem ends_renderMembers (members : List (Option String × Json)) {level : Nat}
    {rest : List Char} (h : Ends rest) : Ends (renderMembers s level members rest) := by
  cases members with
  | nil => exact h
  | cons member members => exact ends_cons (.inr (by decide)) _

theorem value?_of_head (bound : Nat) {c : Char} (hspace : isSpace c = false)
    (h : c ∉ ['[', '\x7b']) (rest : List Char) : value? (bound + 1) (c :: rest) = scalar? (c :: rest) := by
  simp only [List.mem_cons, List.not_mem_nil, or_false, not_or] at h
  rw [value?, skipSpace_cons hspace]
  split
  · next heq => exact absurd (List.cons.inj heq).1 h.1
  · next heq => exact absurd (List.cons.inj heq).1 h.2
  · rfl

theorem scalar?_of_head {c : Char} (h : c ∉ ['n', 't', 'f', '"']) (rest : List Char) :
    scalar? (c :: rest) = number? (c :: rest) := by
  simp only [List.mem_cons, List.not_mem_nil, or_false, not_or] at h
  unfold scalar?
  split
  · next heq => exact absurd (List.cons.inj heq).1 h.1
  · next heq => exact absurd (List.cons.inj heq).1 h.2.1
  · next heq => exact absurd (List.cons.inj heq).1 h.2.2.1
  · next heq => exact absurd (List.cons.inj heq).1 h.2.2.2
  · rfl

theorem value?_array (bound : Nat) {cs : List Char} (h : (skipSpace cs).head? ≠ some ']') :
    value? (bound + 1) ('[' :: cs) = items? bound [] (skipSpace cs) := by
  have hopen : skipSpace ('[' :: cs) = '[' :: cs := skipSpace_cons (by decide) cs
  simp only [value?, hopen]
  split
  · next heq =>
    rw [heq] at h
    exact absurd rfl h
  · rfl

theorem value?_object (bound : Nat) {cs : List Char} (h : (skipSpace cs).head? ≠ some '\x7d') :
    value? (bound + 1) ('\x7b' :: cs) = members? bound [] (skipSpace cs) := by
  have hopen : skipSpace ('\x7b' :: cs) = '\x7b' :: cs := skipSpace_cons (by decide) cs
  simp only [value?, hopen]
  split
  · next heq =>
    rw [heq] at h
    exact absurd rfl h
  · rfl

/-- A number starts with a digit or a sign. -/
theorem signed_head {n : Numeral} (hn : n.Valid) (negative : Bool) :
    ∃ c cs, (Layout.signed negative n.text).toList = c :: cs ∧ (c = '-' ∨ c.isDigit = true) := by
  cases negative with
  | true => exact ⟨'-', n.text, by simp [Layout.signed], .inl rfl⟩
  | false =>
    obtain ⟨c, cs, hcs⟩ := List.exists_cons_of_ne_nil hn.nonempty
    have htext : (Layout.signed false n.text).toList = c :: (cs ++
        ((if n.fraction = [] then [] else '.' :: n.fraction) ++ Numeral.exponentText n.exponent)) := by
      rw [Layout.signed, if_neg Bool.false_ne_true, String.toList_ofList, Numeral.text, hcs,
        List.cons_append]
    exact ⟨c, _, htext, .inr (hn.whole c (hcs ▸ List.mem_cons_self))⟩

theorem not_mem_of_number {c : Char} (h : c = '-' ∨ c.isDigit = true) :
    c ∉ [' ', '\n', '\t', '\r', ']', '[', '\x7b', 'n', 't', 'f', '"'] := by
  intro hmem
  simp only [List.mem_cons, List.not_mem_nil, or_false] at hmem
  rcases hmem with rfl | rfl | rfl | rfl | rfl | rfl | rfl | rfl | rfl | rfl | rfl <;>
    exact absurd h (by decide)

theorem value?_number {n : Numeral} (hn : n.Valid) (negative : Bool) (bound : Nat)
    {rest : List Char} (h : Ends rest) :
    value? (bound + 1) ((Layout.signed negative n.text).toList ++ rest) =
      some (.number (Layout.signed negative n.text), rest) := by
  obtain ⟨c, cs, hcs, hc⟩ := signed_head hn negative
  have hnot := not_mem_of_number hc
  simp only [List.mem_cons, List.not_mem_nil, or_false, not_or] at hnot
  obtain ⟨hblank, hn', ht, hr, hclose, hopen, hbrace, hnull, htrue, hfalse, hquote⟩ := hnot
  have hspace : isSpace c = false := by simp [isSpace, hblank, hn', ht, hr]
  rw [← number?_append hn negative h, hcs, List.cons_append,
    value?_of_head bound hspace (by simp [hopen, hbrace]),
    scalar?_of_head (by simp [hnull, htrue, hfalse, hquote])]

/-- Between brackets a value cannot be taken for the closing bracket. -/
theorem render_head {json : Json} (h : Proper json) (level : Nat) (rest : List Char) :
    ∃ c cs, render s level json rest = c :: cs ∧ isSpace c = false ∧ c ≠ ']' := by
  cases h with
  | null => exact ⟨_, _, rfl, rfl, by decide⟩
  | boolean b => cases b <;> exact ⟨_, _, rfl, rfl, by decide⟩
  | number hn negative =>
    obtain ⟨c, cs, hcs, hc⟩ := signed_head hn negative
    have hnot := not_mem_of_number hc
    simp only [List.mem_cons, List.not_mem_nil, or_false, not_or] at hnot
    obtain ⟨hblank, hn', ht, hr, hclose, -⟩ := hnot
    refine ⟨c, cs ++ rest, ?_, by simp [isSpace, hblank, hn', ht, hr], hclose⟩
    rw [render, hcs, List.cons_append]
  | string text => cases text <;> exact ⟨_, _, rfl, rfl, by decide⟩
  | @array items _ =>
    cases items with
    | nil => exact ⟨'[', _, by rw [render], rfl, by decide⟩
    | cons item items => exact ⟨'[', _, by rw [render, List.cons_append], rfl, by decide⟩
  | @object members _ =>
    cases members with
    | nil => exact ⟨'\x7b', _, by rw [render], rfl, by decide⟩
    | cons member members => exact ⟨'\x7b', _, by rw [render, List.cons_append], rfl, by decide⟩

/-- A value reads back in front of what follows it, in as many steps as it has characters. -/
def Reads (s : Spacing) (json : Json) : Prop :=
  ∀ level bound rest, Ends rest → (render s level json rest).length ≤ bound + rest.length →
    value? (bound + 1) (render s level json rest) = some (json, rest)

/-- What stands after an item of an array, up to the text after the array. -/
theorem after_items (hs : s.Blank) (items : List Json) (level : Nat) (rest : List Char) :
    Ends (renderItems s level items (s.item level ++ ']' :: rest)) ∧
      rest.length < (renderItems s level items (s.item level ++ ']' :: rest)).length := by
  have hle := le_length_renderItems s level items (s.item level ++ ']' :: rest)
  rw [List.length_append, List.length_cons] at hle
  have hclose : Ends (']' :: rest) := ends_cons (.inr (by decide)) rest
  exact ⟨ends_renderItems items (ends_space (hs.item level) hclose), by omega⟩

theorem items?_render (hs : s.Blank) (level bound : Nat) (rest : List Char) {item : Json}
    {items : List Json} (hitems : ∀ j ∈ item :: items, Reads s j) (found : List Json)
    {space : List Char} (hspace : ∀ c ∈ space, isSpace c = true)
    (hbound : (render s (level + 1) item
      (renderItems s level items (s.item level ++ ']' :: rest))).length ≤ bound + rest.length) :
    items? (bound + 1) found (space ++ render s (level + 1) item
      (renderItems s level items (s.item level ++ ']' :: rest))) =
        some (.array (found.reverse ++ item :: items), rest) := by
  induction items generalizing item found space bound with
  | nil =>
    obtain ⟨hends, hlt⟩ := after_items hs [] level rest
    have hle := le_length_render s (level + 1) item
      (renderItems s level [] (s.item level ++ ']' :: rest))
    obtain ⟨bound, rfl⟩ : ∃ b, bound = b + 1 := ⟨_, (Nat.succ_pred (by omega)).symm⟩
    have hread := hitems item List.mem_cons_self (level + 1) bound _ hends (by omega)
    rw [items?, value?_space bound hspace, hread]
    rw [renderItems]
    dsimp only
    rw [skipSpace_append (hs.item level), skipSpace_cons (by decide)]
    simp
  | cons next items ih =>
    obtain ⟨hends, hlt⟩ := after_items hs (next :: items) level rest
    have hle := le_length_render s (level + 1) item
      (renderItems s level (next :: items) (s.item level ++ ']' :: rest))
    obtain ⟨bound, rfl⟩ : ∃ b, bound = b + 1 := ⟨_, (Nat.succ_pred (by omega)).symm⟩
    have hread := hitems item List.mem_cons_self (level + 1) bound _ hends (by omega)
    have hcomma : renderItems s level (next :: items) (s.item level ++ ']' :: rest) =
        ',' :: (s.item (level + 1) ++ render s (level + 1) next
          (renderItems s level items (s.item level ++ ']' :: rest))) := by
      rw [renderItems, List.cons_append]
    have hlength := congrArg List.length hcomma
    rw [List.length_cons, List.length_append] at hlength
    have hnext := ih bound (fun j hj => hitems j (List.mem_cons_of_mem item hj)) (item :: found)
      (hs.item (level + 1)) (by omega)
    rw [items?, value?_space bound hspace, hread, hcomma]
    simp only [skipSpace_cons (c := ',') (by decide), hnext]
    simp

theorem after_members (hs : s.Blank) (members : List (Option String × Json)) (level : Nat)
    (rest : List Char) :
    Ends (renderMembers s level members (s.item level ++ '\x7d' :: rest)) ∧
      rest.length < (renderMembers s level members (s.item level ++ '\x7d' :: rest)).length := by
  have hle := le_length_renderMembers s level members (s.item level ++ '\x7d' :: rest)
  rw [List.length_append, List.length_cons] at hle
  have hclose : Ends ('\x7d' :: rest) := ends_cons (.inr (by decide)) rest
  exact ⟨ends_renderMembers members (ends_space (hs.item level) hclose), by omega⟩

/-- The name of a member and what stands between it and the value. -/
theorem renderMember_name (hs : s.Blank) (level : Nat) (name : Option String) (value : Json)
    (rest : List Char) : ∃ cs space,
      renderMember s level (name, value) rest = '"' :: cs ∧
      stringRest? cs = some (name, ':' :: (space ++ render s (level + 1) value rest)) ∧
      (∀ c ∈ space, isSpace c = true) ∧
      (render s (level + 1) value rest).length ≤ (renderMember s level (name, value) rest).length := by
  obtain ⟨space, hcolon, hspace⟩ := hs.colon
  obtain ⟨cs, htext, hread⟩ :=
    stringRest?_text name (':' :: (space ++ render s (level + 1) value rest))
  have hmember : renderMember s level (name, value) rest = '"' :: cs := by
    rw [← htext, renderMember, hcolon, List.append_assoc, List.cons_append]
  refine ⟨cs, space, hmember, hread, hspace, ?_⟩
  rw [renderMember, List.length_append]
  omega

theorem members?_render (hs : s.Blank) (level bound : Nat) (rest : List Char)
    {name : Option String} {value : Json} {members : List (Option String × Json)}
    (hmembers : ∀ m ∈ (name, value) :: members, Reads s m.2) (found : List (Option String × Json))
    {space : List Char} (hspace : ∀ c ∈ space, isSpace c = true)
    (hbound : (renderMember s level (name, value)
      (renderMembers s level members (s.item level ++ '\x7d' :: rest))).length ≤
        bound + rest.length) :
    members? (bound + 1) found (space ++ renderMember s level (name, value)
      (renderMembers s level members (s.item level ++ '\x7d' :: rest))) =
        some (.object (found.reverse ++ (name, value) :: members), rest) := by
  induction members generalizing name value found space bound with
  | nil =>
    obtain ⟨hends, hlt⟩ := after_members hs [] level rest
    obtain ⟨cs, blank, hname, hstring, hblank, hvalue⟩ := renderMember_name hs level name value
      (renderMembers s level [] (s.item level ++ '\x7d' :: rest))
    have hle := le_length_render s (level + 1) value
      (renderMembers s level [] (s.item level ++ '\x7d' :: rest))
    obtain ⟨bound, rfl⟩ : ∃ b, bound = b + 1 := ⟨_, (Nat.succ_pred (by omega)).symm⟩
    have hread := hmembers _ List.mem_cons_self (level + 1) bound _ hends (by dsimp only; omega)
    have hclose : renderMembers s level [] (s.item level ++ '\x7d' :: rest) =
        s.item level ++ '\x7d' :: rest := by rw [renderMembers]
    rw [members?, skipSpace_append hspace, hname, skipSpace_cons (by decide)]
    simp only [hstring, skipSpace_cons (c := ':') (by decide), value?_space bound hblank, hread]
    rw [hclose, skipSpace_append (hs.item level), skipSpace_cons (by decide)]
    simp
  | cons next members ih =>
    obtain ⟨name', value'⟩ := next
    obtain ⟨hends, hlt⟩ := after_members hs ((name', value') :: members) level rest
    obtain ⟨cs, blank, hname, hstring, hblank, hvalue⟩ := renderMember_name hs level name value
      (renderMembers s level ((name', value') :: members) (s.item level ++ '\x7d' :: rest))
    have hle := le_length_render s (level + 1) value
      (renderMembers s level ((name', value') :: members) (s.item level ++ '\x7d' :: rest))
    obtain ⟨bound, rfl⟩ : ∃ b, bound = b + 1 := ⟨_, (Nat.succ_pred (by omega)).symm⟩
    have hread := hmembers _ List.mem_cons_self (level + 1) bound _ hends (by dsimp only; omega)
    have hcomma : renderMembers s level ((name', value') :: members)
        (s.item level ++ '\x7d' :: rest) =
        ',' :: (s.item (level + 1) ++ renderMember s level (name', value')
          (renderMembers s level members (s.item level ++ '\x7d' :: rest))) := by
      rw [renderMembers, List.cons_append]
    have hlength := congrArg List.length hcomma
    rw [List.length_cons, List.length_append] at hlength
    have hnext := ih bound (fun m hm => hmembers m (List.mem_cons_of_mem _ hm))
      ((name, value) :: found) (hs.item (level + 1)) (by omega)
    rw [members?, skipSpace_append hspace, hname, skipSpace_cons (by decide)]
    simp only [hstring, skipSpace_cons (c := ':') (by decide), value?_space bound hblank, hread]
    rw [hcomma]
    simp only [skipSpace_cons (c := ',') (by decide), hnext]
    simp

theorem value?_items (hs : s.Blank) (level bound : Nat) {rest : List Char} {item : Json}
    {items : List Json} (hproper : Proper item) (hreads : ∀ j ∈ item :: items, Reads s j)
    (hbound : (render s level (.array (item :: items)) rest).length ≤ bound + rest.length) :
    value? (bound + 1) (render s level (.array (item :: items)) rest) =
      some (.array (item :: items), rest) := by
  obtain ⟨c, cs, hhead, hspace, hne⟩ := render_head (s := s) hproper (level + 1)
    (renderItems s level items (s.item level ++ ']' :: rest))
  have hrender : render s level (.array (item :: items)) rest =
      '[' :: (s.item (level + 1) ++ render s (level + 1) item
        (renderItems s level items (s.item level ++ ']' :: rest))) := by
    rw [render, List.cons_append]
  have hlength := congrArg List.length hrender
  rw [List.length_cons, List.length_append] at hlength
  obtain ⟨-, hlt⟩ := after_items hs items level rest
  have hle := le_length_render s (level + 1) item
    (renderItems s level items (s.item level ++ ']' :: rest))
  obtain ⟨bound, rfl⟩ : ∃ b, bound = b + 1 := ⟨_, (Nat.succ_pred (by omega)).symm⟩
  have hitems := items?_render hs level bound rest hreads [] (List.forall_mem_nil _) (by omega)
  rw [List.nil_append] at hitems
  have hskip : skipSpace (s.item (level + 1) ++ render s (level + 1) item
      (renderItems s level items (s.item level ++ ']' :: rest))) = c :: cs := by
    rw [skipSpace_append (hs.item _), hhead, skipSpace_cons hspace]
  have hopen : (c :: cs).head? ≠ some ']' := fun h => hne (Option.some.inj h)
  rw [hrender, value?_array _ (hskip ▸ hopen), hskip, ← hhead, hitems]
  rfl

theorem value?_members (hs : s.Blank) (level bound : Nat) {rest : List Char}
    {name : Option String} {value : Json} {members : List (Option String × Json)}
    (hreads : ∀ m ∈ (name, value) :: members, Reads s m.2)
    (hbound : (render s level (.object ((name, value) :: members)) rest).length ≤
      bound + rest.length) :
    value? (bound + 1) (render s level (.object ((name, value) :: members)) rest) =
      some (.object ((name, value) :: members), rest) := by
  have hrender : render s level (.object ((name, value) :: members)) rest =
      '\x7b' :: (s.item (level + 1) ++ renderMember s level (name, value)
        (renderMembers s level members (s.item level ++ '\x7d' :: rest))) := by
    rw [render, List.cons_append]
  have hlength := congrArg List.length hrender
  rw [List.length_cons, List.length_append] at hlength
  obtain ⟨-, hlt⟩ := after_members hs members level rest
  obtain ⟨cs, blank, hname, -, -, hvalue⟩ := renderMember_name hs level name value
    (renderMembers s level members (s.item level ++ '\x7d' :: rest))
  have hle := le_length_render s (level + 1) value
    (renderMembers s level members (s.item level ++ '\x7d' :: rest))
  obtain ⟨bound, rfl⟩ : ∃ b, bound = b + 1 := ⟨_, (Nat.succ_pred (by omega)).symm⟩
  have hmembers := members?_render hs level bound rest hreads [] (List.forall_mem_nil _) (by omega)
  rw [List.nil_append] at hmembers
  have hskip : skipSpace (s.item (level + 1) ++ renderMember s level (name, value)
      (renderMembers s level members (s.item level ++ '\x7d' :: rest))) = '"' :: cs := by
    rw [skipSpace_append (hs.item _), hname, skipSpace_cons (by decide)]
  have hopen : ('"' :: cs).head? ≠ some '\x7d' := fun h => absurd (Option.some.inj h) (by decide)
  rw [hrender, value?_object _ (hskip ▸ hopen), hskip, ← hname, hmembers]
  rfl

theorem Proper.reads (hs : s.Blank) {json : Json} (h : Proper json) : Reads s json := by
  induction h with
  | null => exact fun _ _ _ _ _ => rfl
  | boolean b => cases b <;> exact fun _ _ _ _ _ => rfl
  | number hn negative =>
    intro level bound rest hends _
    rw [render]
    exact value?_number hn negative bound hends
  | string text =>
    intro level bound rest _ _
    obtain ⟨cs, htext, hread⟩ := stringRest?_text text rest
    rw [render, htext, value?_of_head bound (by decide) (by decide)]
    simp only [scalar?, hread, Option.map_some]
  | @array items hproper ih =>
    intro level bound rest _ hbound
    cases items with
    | nil =>
      rw [render, value?, skipSpace_cons (by decide)]
      simp only [skipSpace_cons (c := ']') (by decide)]
    | cons item items =>
      exact value?_items hs level bound (hproper item List.mem_cons_self) ih hbound
  | @object members _ ih =>
    intro level bound rest _ hbound
    cases members with
    | nil =>
      rw [render, value?, skipSpace_cons (by decide)]
      simp only [skipSpace_cons (c := '\x7d') (by decide)]
    | cons member members => exact value?_members hs level bound ih hbound

/-- A document that is written reads back, in either spacing. -/
theorem parse?_write (hs : s.Blank) {json : Json} (h : Proper json) :
    parse? (json.write s) = some json := by
  have hends : Ends [] := fun _ hc => nomatch hc
  have hread := h.reads hs 0 (2 * (render s 0 json []).length + 1) [] hends (by omega)
  rw [parse?, write]
  simp only [String.toList_ofList, hread]
  rfl

end Json

end ExprMachine
