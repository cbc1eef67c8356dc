import DurableScript.Json.Reader
import DurableScript.Json.Render
import DurableScript.Proofs.NumberText
import DurableScript.Proofs.Tables

namespace DurableScript

namespace Document

variable {n : Nat} {rest : List Char}

def pieceOf (c : Char) : Piece :=
  if c.toNat < 32 ∧ c ∉ ['\x08', '\x0c', '\n', '\r', '\t'] then .unit c.toNat else .char c

theorem hexUnit?_control : ∀ n : Fin 32,
    hexUnit? '0' '0' (Nat.digitChar (n / 16)) (Nat.digitChar (n % 16)) = some n.val := by
  decide

theorem readPieces_control (done : List Piece) (h : n < 32) (rest : List Char) : readPieces done
        ('\\' :: 'u' :: '0' :: '0' :: Nat.digitChar (n / 16) :: Nat.digitChar (n % 16) :: rest) =
      readPieces (.unit n :: done) rest := by
  rw [readPieces, hexUnit?_control ⟨n, h⟩]

theorem readPieces_plain (done : List Piece) {c : Char} (hquote : c ≠ '"') (hslash : c ≠ '\\')
    (h : ¬ c.toNat < 32) (rest : List Char) :
    readPieces done (c :: rest) = readPieces (.char c :: done) rest := by
  rw [readPieces, if_neg h] <;> simp_all

theorem readPieces_escapeChar (done : List Piece) (c : Char) (rest : List Char) :
    readPieces done (Json.escapeChar c ++ rest) = readPieces (pieceOf c :: done) rest := by
  unfold Json.escapeChar
  split
  case h_8 _ hquote hslash hb hf hn hr ht =>
    have hletter : c ∉ ['\x08', '\x0c', '\n', '\r', '\t'] := by simp_all
    unfold pieceOf
    split
    case isTrue hcontrol =>
      rw [if_pos ⟨hcontrol, hletter⟩]
      exact readPieces_control done hcontrol rest
    case isFalse hcontrol =>
      rw [if_neg fun h => hcontrol h.1]
      exact readPieces_plain done hquote hslash hcontrol rest
  all_goals rfl

theorem readPieces_escaped (done : List Piece) (text rest : List Char) :
    readPieces done (text.flatMap Json.escapeChar ++ '"' :: rest) =
      some (done.reverse ++ text.map pieceOf, rest) := by
  induction text generalizing done with
  | nil => simp [readPieces]
  | cons c text ih =>
    rw [List.flatMap_cons, List.append_assoc, readPieces_escapeChar, ih]
    simp

theorem joinPieces_unit (done : List Char) {u : Nat} (h : u < 32) (rest : List Piece) :
    joinPieces done (.unit u :: rest) = joinPieces (Char.ofNat u :: done) rest := by
  have hlead : isLead u = false := by
    simp only [isLead, Bool.and_eq_false_iff, decide_eq_false_iff_not]
    omega
  have htrail : isTrail u = false := by
    simp only [isTrail, Bool.and_eq_false_iff, decide_eq_false_iff_not]
    omega
  match rest with
  | [] | .char c :: rest | .unit v :: rest => simp [joinPieces, hlead, htrail]

theorem joinPieces_pieceOf (done text : List Char) :
    joinPieces done (text.map pieceOf) = some (String.ofList (done.reverse ++ text)) := by
  induction text generalizing done with
  | nil => simp [joinPieces]
  | cons c text ih =>
    rw [List.map_cons, pieceOf]
    split
    case isTrue hcontrol =>
      rw [joinPieces_unit done hcontrol.1, ih, Char.ofNat_toNat]
      simp
    case isFalse =>
      rw [joinPieces, ih]
      simp

theorem readString_escaped (s : String) (rest : List Char) :
    readString (s.toList.flatMap Json.escapeChar ++ '"' :: rest) = some (some s, rest) := by
  unfold readString
  rw [readPieces_escaped, Option.map_some]
  simp only [List.reverse_nil, List.nil_append, joinPieces_pieceOf, String.ofList_toList]

theorem head?_toDigits_ne_zero (hn : 0 < n) : (Nat.toDigits 10 n).head? ≠ some '0' := by
  induction n using Nat.strongRecOn with
  | _ n ih =>
    by_cases hlt : n < 10
    · have hdigit : ∀ m : Fin 10, 0 < m.val → [Nat.digitChar m].head? ≠ some '0' := by decide
      rw [Nat.toDigits_of_lt_base hlt]
      exact hdigit ⟨n, hlt⟩ hn
    · rw [Nat.toDigits_of_base_le (by decide) (by omega),
        List.head?_append_of_ne_nil _ Nat.toDigits_ne_nil]
      exact ih (n / 10) (by omega) (by omega)

def EndsNumber (rest : List Char) : Prop :=
  ∀ c ∈ rest.head?, Decimal.isDigit c = false ∧ c ≠ '.' ∧ c ≠ 'e' ∧ c ≠ 'E'

theorem endsNumber_nil : EndsNumber [] := fun _ h => nomatch h

theorem endsNumber_cons {c : Char} (h : Decimal.isDigit c = false ∧ c ≠ '.' ∧ c ≠ 'e' ∧ c ≠ 'E') :
    EndsNumber (c :: rest) := by
  rintro _ ⟨⟩
  exact h

theorem readDigits?_append {digits : List Char} (hne : digits ≠ [])
    (hdigits : digits.all Decimal.isDigit = true) (hrest : EndsNumber rest) :
    readDigits? (digits ++ rest) = some (digits, rest) := by
  have htake : (digits ++ rest).takeWhile Decimal.isDigit = digits := by
    rw [List.takeWhile_append_of_pos (by simpa using hdigits)]
    cases rest with
    | nil => simp
    | cons c rest => simp [(hrest c rfl).1]
  have hdrop : (digits ++ rest).dropWhile Decimal.isDigit = rest := by
    rw [List.dropWhile_append_of_pos (by simpa using hdigits)]
    cases rest with
    | nil => simp
    | cons c rest => simp [(hrest c rfl).1]
  simp [readDigits?, htake, hdrop, hne]

theorem readWhole?_toDigits (n : Nat) (hrest : EndsNumber rest) :
    readWhole? (Nat.toDigits 10 n ++ rest) = some (Nat.toDigits 10 n, rest) := by
  by_cases hzero : n = 0
  · rw [hzero]
    rfl
  have hhead := head?_toDigits_ne_zero (Nat.pos_of_ne_zero hzero)
  have hread := readDigits?_append Nat.toDigits_ne_nil (Decimal.all_isDigit_toDigits n) hrest
  cases hdigits : Nat.toDigits 10 n with
  | nil => exact absurd hdigits Nat.toDigits_ne_nil
  | cons c digits =>
    rw [hdigits] at hhead hread
    have hc : c ≠ '0' := fun h => hhead (congrArg some h)
    rw [List.cons_append] at hread ⊢
    unfold readWhole?
    simpa [hc] using hread

theorem readFraction?_of_endsNumber (h : EndsNumber rest) :
    readFraction? rest = some ([], rest) := by
  unfold readFraction?
  split
  · exact absurd rfl (h '.' rfl).2.1
  · rfl

theorem readExponent?_of_endsNumber (h : EndsNumber rest) :
    readExponent? rest = some (none, rest) := by
  unfold readExponent?
  split
  · exact absurd rfl (h 'e' rfl).2.2.1
  · exact absurd rfl (h 'E' rfl).2.2.2
  · rfl

theorem readNumber?_toDigits (n : Nat) (h : EndsNumber rest) :
    readNumber? (Nat.toDigits 10 n ++ rest) =
      some (⟨false, Nat.toDigits 10 n, [], none⟩, rest) := by
  have hunsigned : readUnsigned? false (Nat.toDigits 10 n ++ rest) =
      some (⟨false, Nat.toDigits 10 n, [], none⟩, rest) := by
    simp [readUnsigned?, readWhole?_toDigits n h, readFraction?_of_endsNumber h,
      readExponent?_of_endsNumber h]
  obtain ⟨c, digits, hdigits, hc⟩ := Numeral.exists_toDigits_cons n
  have hminus : c ≠ '-' := fun h => absurd (h ▸ hc) (by decide)
  rw [hdigits, List.cons_append] at hunsigned ⊢
  unfold readNumber?
  simpa [hminus] using hunsigned

theorem number?_toDigits (h : n < 2 ^ 64) :
    JsonLiteral.number? ⟨false, Nat.toDigits 10 n, [], none⟩ = some (.int n) := by
  simpa [JsonLiteral.number?] using h

end Document

namespace Json

def literal : JsonNumber → JsonLiteral
  | .int n => ⟨false, Nat.toDigits 10 n.toNat, [], none⟩
  | .float _ => ⟨false, [], [], none⟩

mutual

def document : Json → Document
  | null => .null
  | bool b => .bool b
  | num n => .num (literal n)
  | str s => .str (some s)
  | arr items => .arr (itemDocuments items)
  | obj members => .obj (memberDocuments members)

def itemDocuments : List Json → List Document
  | [] => []
  | item :: rest => document item :: itemDocuments rest

def memberDocuments : List (String × Json) → List (Option String × Document)
  | [] => []
  | (name, value) :: rest => (some name, document value) :: memberDocuments rest

end

mutual

def Everywhere (P : Json → Prop) : Json → Prop
  | arr items => P (arr items) ∧ EverywhereItems P items
  | obj members => P (obj members) ∧ EverywhereMembers P members
  | json => P json

def EverywhereItems (P : Json → Prop) : List Json → Prop
  | [] => True
  | item :: rest => Everywhere P item ∧ EverywhereItems P rest

def EverywhereMembers (P : Json → Prop) : List (String × Json) → Prop
  | [] => True
  | (_, value) :: rest => Everywhere P value ∧ EverywhereMembers P rest

end

mutual

theorem everywhere_mono {P Q : Json → Prop} (hPQ : ∀ json, P json → Q json) :
    ∀ json, Everywhere P json → Everywhere Q json
  | .null, h | .bool _, h | .num _, h | .str _, h => hPQ _ h
  | .arr items, h => ⟨hPQ _ h.1, everywhereItems_mono hPQ items h.2⟩
  | .obj members, h => ⟨hPQ _ h.1, everywhereMembers_mono hPQ members h.2⟩

theorem everywhereItems_mono {P Q : Json → Prop} (hPQ : ∀ json, P json → Q json) :
    ∀ items, EverywhereItems P items → EverywhereItems Q items
  | [], _ => trivial
  | item :: rest, h => ⟨everywhere_mono hPQ item h.1, everywhereItems_mono hPQ rest h.2⟩

theorem everywhereMembers_mono {P Q : Json → Prop} (hPQ : ∀ json, P json → Q json) :
    ∀ members, EverywhereMembers P members → EverywhereMembers Q members
  | [], _ => trivial
  | (_, value) :: rest, h => ⟨everywhere_mono hPQ value h.1, everywhereMembers_mono hPQ rest h.2⟩

end

def IsWhole : Json → Prop
  | num (.int n) => 0 ≤ n
  | num (.float _) => False
  | _ => True

def IsReadable : Json → Prop
  | num (.int n) => 0 ≤ n ∧ n < 2 ^ 64
  | num (.float _) => False
  | obj members => Table.Distinct members
  | _ => True

theorem IsReadable.isWhole : ∀ json, IsReadable json → IsWhole json
  | num (.int _), h => h.1
  | null, _ | bool _, _ | str _, _ | arr _, _ | obj _, _ => trivial

mutual

def levels : Json → Nat
  | arr items => itemLevels items + 1
  | obj members => memberLevels members + 1
  | _ => 0

def itemLevels : List Json → Nat
  | [] => 0
  | item :: rest => max (levels item) (itemLevels rest)

def memberLevels : List (String × Json) → Nat
  | [] => 0
  | (_, value) :: rest => max (levels value) (memberLevels rest)

end

theorem exists_render_cons {json : Json} (h : json.Everywhere IsWhole) :
    ∃ c text, json.render = c :: text ∧ (c ∈ ['n', 't', 'f', '"', '[', '\x7b'] ∨
      Decimal.isDigit c = true) := by
  match json, h with
  | null, _ | bool true, _ | bool false, _ => exact ⟨_, _, rfl, .inl (by decide)⟩
  | num (.int n), h =>
    obtain ⟨m, rfl⟩ := Int.eq_ofNat_of_zero_le h
    obtain ⟨c, text, htext, hc⟩ := Numeral.exists_toDigits_cons m
    refine ⟨c, text, ?_, .inr hc⟩
    show (m.repr).toList = _
    rw [Nat.toList_repr, htext]
  | str s, _ | arr items, _ | obj members, _ => exact ⟨_, _, rfl, .inl (by decide)⟩

end Json

namespace Document

theorem skipBlanks_cons {c : Char} {text : List Char}
    (h : c ∈ ['n', 't', 'f', '"', '[', '\x7b', ']', '\x7d', ',', ':'] ∨
      Decimal.isDigit c = true) :
    skipBlanks (c :: text) = c :: text := by
  have hblank : (c == ' ' || c == '\t' || c == '\n' || c == '\r') = false := by
    rw [Bool.eq_false_iff]
    intro hblank
    simp only [Bool.or_eq_true, beq_iff_eq] at hblank
    rcases hblank with ((rfl | rfl) | rfl) | rfl <;> simp [Decimal.isDigit] at h
  simp [skipBlanks, hblank]

theorem readValue_digit (fuel : Nat) {c : Char} (hc : Decimal.isDigit c = true) (text : List Char) :
    readValue (fuel + 1) (c :: text) =
      (readNumber? (c :: text)).map fun (literal, rest) => (num literal, rest) := by
  have hne : ∀ d, Decimal.isDigit d = false → c ≠ d := by
    rintro d hd rfl
    rw [hc] at hd
    contradiction
  rw [readValue, skipBlanks_cons (.inr hc)]
  split <;> rename_i heq <;>
    first | exact absurd (List.cons.inj heq).1 (hne _ (by decide)) | rfl

open Json

theorem endsNumber_comma (rest : List Char) : EndsNumber (',' :: rest) :=
  endsNumber_cons (by decide)

theorem endsNumber_bracket (rest : List Char) : EndsNumber (']' :: rest) :=
  endsNumber_cons (by decide)

theorem endsNumber_brace (rest : List Char) : EndsNumber ('\x7d' :: rest) :=
  endsNumber_cons (by decide)

theorem renderItems_eq (item : Json) (items : List Json) :
    ∃ tail, renderItems (item :: items) = item.render ++ tail ∧
      (items = [] ∧ tail = [']'] ∨ items ≠ [] ∧ tail = ',' :: renderItems items) := by
  cases items with
  | nil => exact ⟨_, rfl, .inl ⟨rfl, rfl⟩⟩
  | cons next items => exact ⟨_, rfl, .inr ⟨by simp, rfl⟩⟩

theorem renderMembers_eq (name : String) (value : Json) (members : List (String × Json)) :
    ∃ tail, renderMembers ((name, value) :: members) = '"' :: tail := by
  cases members with
  | nil | cons next members => exact ⟨_, rfl⟩

theorem readValue_list (fuel : Nat) {c : Char} {text : List Char}
    (hc : c ∈ ['n', 't', 'f', '"', '[', '\x7b'] ∨ Decimal.isDigit c = true) :
    readValue (fuel + 1) ('[' :: c :: text) =
      (readItems fuel (c :: text)).map fun (items, rest) => (.arr items, rest) := by
  have hskip : skipBlanks (c :: text) = c :: text :=
    skipBlanks_cons (hc.imp_left fun h => by simp at h ⊢; tauto)
  have hclose : c ≠ ']' := by
    rintro rfl
    simp [Decimal.isDigit] at hc
  rw [readValue, skipBlanks_cons (.inl (by decide))]
  simp only [hskip]
  split
  · rename_i heq
    exact absurd (List.cons.inj heq).1 hclose
  · rfl

theorem readValue_object (fuel : Nat) (text : List Char) :
    readValue (fuel + 1) ('\x7b' :: '"' :: text) =
      (readMembers fuel ('"' :: text)).map fun (members, rest) => (.obj members, rest) := by
  rw [readValue, skipBlanks_cons (.inl (by decide))]
  simp only [skipBlanks_cons (.inl (by decide : '"' ∈ _))]
  rfl

mutual

theorem readValue_render (json : Json) (h : json.Everywhere IsWhole) {fuel : Nat}
    (hfuel : json.render.length ≤ fuel) {rest : List Char} (hrest : EndsNumber rest) :
    readValue fuel (json.render ++ rest) = some (json.document, rest) := by
  obtain ⟨c, text, htext, -⟩ := exists_render_cons h
  obtain ⟨fuel, rfl⟩ : ∃ k, fuel = k + 1 := by
    rw [htext, List.length_cons] at hfuel
    exact ⟨fuel - 1, by omega⟩
  match json, h with
  | .null, _ => rfl
  | .bool true, _ => rfl
  | .bool false, _ => rfl
  | .num (.int n), h =>
    obtain ⟨m, rfl⟩ := Int.eq_ofNat_of_zero_le h
    have hrender : render (.num (.int m)) = Nat.toDigits 10 m := Nat.toList_repr
    obtain ⟨c, digits, hdigits, hc⟩ := Numeral.exists_toDigits_cons m
    have hread := readNumber?_toDigits m hrest
    rw [hdigits, List.cons_append] at hread
    rw [hrender, hdigits, List.cons_append, readValue_digit fuel hc, hread, ← hdigits]
    rfl
  | .str s, _ =>
    have hrender : render (.str s) ++ rest =
        '"' :: (s.toList.flatMap escapeChar ++ '"' :: rest) := by
      simp [render, renderString]
    rw [hrender, readValue, skipBlanks_cons (.inl (by decide))]
    simp only [readString_escaped, Option.map_some]
    rfl
  | .arr [], _ => rfl
  | .arr (item :: items), h =>
    have hlength : (renderItems (item :: items)).length ≤ fuel := by simpa [render] using hfuel
    have hitems := readItems_render item items h.2 hlength rest
    obtain ⟨c, text, htext, hc⟩ := exists_render_cons h.2.1
    obtain ⟨tail, htail, -⟩ := renderItems_eq item items
    have hrender : render (.arr (item :: items)) ++ rest = '[' :: c :: (text ++ tail ++ rest) := by
      simp [render, htail, htext]
    have hrest : renderItems (item :: items) ++ rest = c :: (text ++ tail ++ rest) := by
      simp [htail, htext]
    rw [hrest] at hitems
    rw [hrender, readValue_list fuel hc, hitems]
    rfl
  | .obj [], _ => rfl
  | .obj ((name, value) :: members), h =>
    have hlength : (renderMembers ((name, value) :: members)).length ≤ fuel := by
      simpa [render] using hfuel
    have hmembers := readMembers_render name value members h.2 hlength rest
    obtain ⟨tail, htail⟩ := renderMembers_eq name value members
    have hrest : renderMembers ((name, value) :: members) ++ rest = '"' :: (tail ++ rest) := by
      rw [htail, List.cons_append]
    have hrender : render (.obj ((name, value) :: members)) ++ rest =
        '\x7b' :: '"' :: (tail ++ rest) := by
      rw [render, List.cons_append, hrest]
    rw [hrest] at hmembers
    rw [hrender, readValue_object, hmembers]
    rfl
termination_by fuel
decreasing_by all_goals omega

theorem readItems_render (item : Json) (items : List Json) (h : EverywhereItems IsWhole (item :: items))
    {fuel : Nat} (hfuel : (renderItems (item :: items)).length ≤ fuel) (rest : List Char) :
    readItems fuel (renderItems (item :: items) ++ rest) =
      some (itemDocuments (item :: items), rest) := by
  obtain ⟨fuel, rfl⟩ : ∃ k, fuel = k + 1 := by
    obtain ⟨c, text, htext, -⟩ := exists_render_cons h.1
    obtain ⟨tail, htail, -⟩ := renderItems_eq item items
    rw [htail, htext, List.cons_append, List.length_cons] at hfuel
    exact ⟨fuel - 1, by omega⟩
  match items, h with
  | [], h =>
    have hlength : item.render.length ≤ fuel := by simpa [renderItems] using hfuel
    have hvalue := readValue_render item h.1 hlength (endsNumber_bracket rest)
    have htext : renderItems [item] ++ rest = item.render ++ ']' :: rest := by simp [renderItems]
    rw [htext, readItems, hvalue]
    rfl
  | next :: items, h =>
    have hlength : item.render.length ≤ fuel ∧ (renderItems (next :: items)).length ≤ fuel := by
      simp only [renderItems, List.length_append, List.length_cons] at hfuel
      omega
    have htext : renderItems (item :: next :: items) ++ rest =
        item.render ++ ',' :: (renderItems (next :: items) ++ rest) := by
      simp [renderItems]
    have hvalue := readValue_render item h.1 hlength.1
      (endsNumber_comma (renderItems (next :: items) ++ rest))
    have hitems := readItems_render next items h.2 hlength.2 rest
    rw [htext, readItems, hvalue]
    simp only [skipBlanks_cons (.inl (by decide : ',' ∈ _)), hitems, Option.map_some]
    rfl
termination_by fuel
decreasing_by all_goals omega

theorem readMembers_render (name : String) (value : Json) (members : List (String × Json))
    (h : EverywhereMembers IsWhole ((name, value) :: members)) {fuel : Nat}
    (hfuel : (renderMembers ((name, value) :: members)).length ≤ fuel) (rest : List Char) :
    readMembers fuel (renderMembers ((name, value) :: members) ++ rest) =
      some (memberDocuments ((name, value) :: members), rest) := by
  obtain ⟨fuel, rfl⟩ : ∃ k, fuel = k + 1 := by
    obtain ⟨tail, htail⟩ := renderMembers_eq name value members
    rw [htail, List.length_cons] at hfuel
    exact ⟨fuel - 1, by omega⟩
  match members, h with
  | [], h =>
    have hlength : value.render.length ≤ fuel := by
      simp only [renderMembers, List.length_append, List.length_cons] at hfuel
      omega
    have hvalue := readValue_render value h.1 hlength (endsNumber_brace rest)
    have htext : renderMembers [(name, value)] ++ rest = '"' :: (name.toList.flatMap escapeChar ++
        '"' :: ':' :: (value.render ++ '\x7d' :: rest)) := by
      simp [renderMembers, renderString]
    rw [htext, readMembers, skipBlanks_cons (.inl (by decide))]
    simp only [readString_escaped, skipBlanks_cons (.inl (by decide : ':' ∈ _)), hvalue,
      skipBlanks_cons (.inl (by decide : '\x7d' ∈ _))]
    rfl
  | (next, second) :: members, h =>
    have hlength : value.render.length ≤ fuel ∧
        (renderMembers ((next, second) :: members)).length ≤ fuel := by
      simp only [renderMembers, List.length_append, List.length_cons] at hfuel
      omega
    have hvalue := readValue_render value h.1 hlength.1
      (endsNumber_comma (renderMembers ((next, second) :: members) ++ rest))
    have hmembers := readMembers_render next second members h.2 hlength.2 rest
    have htext : renderMembers ((name, value) :: (next, second) :: members) ++ rest =
        '"' :: (name.toList.flatMap escapeChar ++ '"' :: ':' :: (value.render ++
          ',' :: (renderMembers ((next, second) :: members) ++ rest))) := by
      simp [renderMembers, renderString]
    rw [htext, readMembers, skipBlanks_cons (.inl (by decide))]
    simp only [readString_escaped, skipBlanks_cons (.inl (by decide : ':' ∈ _)), hvalue,
      skipBlanks_cons (.inl (by decide : ',' ∈ _)), hmembers, Option.map_some]
    rfl
termination_by fuel
decreasing_by all_goals omega

end

theorem parse?_render {json : Json} (h : json.Everywhere IsWhole) :
    parse? json.render = some json.document := by
  have hread := readValue_render json h (Nat.le_succ _) endsNumber_nil
  rw [List.append_nil] at hread
  unfold parse?
  rw [hread]
  rfl

mutual

theorem toJson?_document (json : Json) (h : json.Everywhere IsReadable) (n : Nat) :
    json.document.toJson? n = if json.levels ≤ n then some json else none := by
  match json, h with
  | .null, _ | .bool b, _ => simp [document, toJson?, levels]
  | .num (.int m), h =>
    obtain ⟨m, rfl⟩ := Int.eq_ofNat_of_zero_le h.1
    have hm : m < 2 ^ 64 := by exact_mod_cast h.2
    simp [document, toJson?, literal, levels, number?_toDigits hm]
  | .str s, _ => simp [document, toJson?, levels]
  | .arr items, h =>
    cases n with
    | zero => simp [document, toJson?, levels]
    | succ n =>
      rw [document, toJson?, itemsToJson?_document items h.2, levels]
      split <;> simp_all
  | .obj members, h =>
    cases n with
    | zero => simp [document, toJson?, levels]
    | succ n =>
      have hmembers := membersToJson?_document members h.2 n [] h.1
      rw [document, toJson?, hmembers, levels]
      split <;> simp_all

theorem itemsToJson?_document (items : List Json) (h : EverywhereItems IsReadable items) (n : Nat) :
    itemsToJson? n (itemDocuments items) =
      if itemLevels items ≤ n then some items else none := by
  match items, h with
  | [], _ => simp [itemDocuments, itemsToJson?, itemLevels]
  | item :: rest, h =>
    rw [itemDocuments, itemsToJson?, toJson?_document item h.1, itemsToJson?_document rest h.2,
      itemLevels]
    by_cases hitem : item.levels ≤ n <;> by_cases hrest : itemLevels rest ≤ n <;>
      simp [hitem, hrest]

theorem membersToJson?_document (members : List (String × Json))
    (h : EverywhereMembers IsReadable members) (n : Nat) (done : Table Json)
    (hdistinct : Table.Distinct (done ++ members)) :
    membersToJson? n done (memberDocuments members) =
      if memberLevels members ≤ n then some (done ++ members) else none := by
  match members, h with
  | [], _ => simp [memberDocuments, membersToJson?, memberLevels]
  | (name, value) :: rest, h =>
    rw [memberDocuments, memberLevels]
    unfold membersToJson?
    rw [toJson?_document value h.1]
    by_cases hvalue : value.levels ≤ n
    · have hinsert := Table.insert_of_notMem (Table.notMem_keys_of_distinct hdistinct) value
      rw [List.append_cons] at hdistinct
      simp only [hvalue, if_true, hinsert]
      rw [membersToJson?_document rest h.2 n _ hdistinct]
      by_cases hrest : memberLevels rest ≤ n <;> simp [hrest, hvalue]
    · simp [hvalue]

end

end Document

namespace Json

theorem parse?_text {json : Json} (h : json.Everywhere IsReadable) :
    parse? json.text.toList = if json.levels ≤ maxLevels then some json else none := by
  rw [parse?, text, String.toList_ofList,
    Document.parse?_render (everywhere_mono IsReadable.isWhole json h), Option.bind_some,
    Document.toJson?_document json h]

end Json

end DurableScript
