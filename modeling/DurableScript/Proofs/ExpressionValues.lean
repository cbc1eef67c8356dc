import DurableScript.Proofs.Calls

namespace DurableScript

open Node

/-- A call that reached the host, what the host answered, and the objects that there were then. -/
structure Consultation where
  call : HostCall
  reply : Reply
  objects : Objects

def Answer.result? : Answer → Option Value
  | value result | after result _ => some result
  | before _ => none

def Store.consulted (store : Store) (consultation : Consultation) : Store :=
  { store with
    vars := consultation.reply.writes.foldl Variables.write store.vars
    objects := consultation.objects }

def Node.hostCall? : Node → Option (String × List Node × Eval (Option Value))
  | .call name args _ => some (name, args, return none)
  | .methodCall object name args pos =>
    some (name, args, do return some (← Eval.receiver pos object).1)
  | _ => none

/-- The values of a phrase that is evaluated in a store with the answers that are to come, and what
is left of both. -/
inductive Phrase.Denotes (signals : List String) :
    Phrase → Store → List Consultation → List Value → Store → List Consultation → Prop where
  | literal {node : Node} {literal : Literal} {store : Store} {answers : List Consultation} :
      node.literal? = some literal →
      Denotes signals (.value node) store answers [literal.value] store answers
  | ident {name : String} {pos : Option SourcePos} {value : Value} {store after : Store}
      {answers : List Consultation} : Eval.read pos name store = some (.ok value, after) →
      Denotes signals (.value (.ident name pos)) store answers [value] after answers
  | signal {op : Operator} {left right : Node} {pos : Option SourcePos} {value : Value}
      {store after : Store} {answers : List Consultation} : left.isSignal = true →
      Eval.signalComparison signals op right store = some (.ok value, after) →
      Denotes signals (.value (.binary op left right pos)) store answers [value] after answers
  | binary {op : Operator} {left right : Node} {pos : Option SourcePos} {x y value : Value}
      {store between late after : Store} {answers later rest : List Consultation} :
      left.isSignal = false → Denotes signals (.value left) store answers [x] between later →
      Denotes signals (.value right) between later [y] late rest →
      Eval.operate pos op x y late = some (.ok value, after) →
      Denotes signals (.value (.binary op left right pos)) store answers [value] after rest
  | call {node : Node} {name : String} {args : List Node} {callee : Eval (Option Value)}
      {values : List Value} {store between late : Store} {receiver : Option Value} {answer : Answer}
      {result : Value} {answers rest : List Consultation} {consultation : Consultation} :
      node.hostCall? = some (name, args, callee) →
      Denotes signals (.arguments args) store answers values between (consultation :: rest) →
      callee between = some (.ok receiver, late) → consultation.call = ⟨receiver, name, values⟩ →
      consultation.reply.outcome = .ok answer → answer.result? = some result →
      Denotes signals (.value node) store answers [result] (late.consulted consultation) rest
  | again {node : Node} {name : String} {args : List Node} {callee : Eval (Option Value)}
      {values results : List Value} {store between late after : Store} {receiver extra : Option Value}
      {answers later rest : List Consultation} {consultation : Consultation} :
      node.hostCall? = some (name, args, callee) →
      Denotes signals (.arguments args) store answers values between (consultation :: later) →
      callee between = some (.ok receiver, late) → consultation.call = ⟨receiver, name, values⟩ →
      consultation.reply.outcome = .ok (.before extra) →
      Denotes signals (.value node) (late.consulted consultation) later results after rest →
      Denotes signals (.value node) store answers results after rest
  | group {inner : Node} {pos : Option SourcePos} {values : List Value} {store after : Store}
      {answers rest : List Consultation} :
      Denotes signals (.value inner) store answers values after rest →
      Denotes signals (.value (.group inner pos)) store answers values after rest
  | negate {inner : Node} {pos : Option SourcePos} {value : Value} {store after : Store}
      {answers rest : List Consultation} :
      Denotes signals (.value inner) store answers [value] after rest →
      Denotes signals (.value (.negate inner pos)) store answers [.bool !value.truthy] after rest
  | path {names properties : List String} {object : String} {pos : Option SourcePos}
      {value found : Value} {store between after : Store} {answers : List Consultation} :
      names.reverse = object :: properties → Eval.read pos object store = some (.ok found, between) →
      properties.foldlM (Eval.property pos) found between = some (.ok value, after) →
      Denotes signals (.value (.path names pos)) store answers [value] after answers
  | nil {store : Store} {answers : List Consultation} :
      Denotes signals (.arguments []) store answers [] store answers
  | cons {arg : Node} {args : List Node} {value : Value} {values : List Value}
      {store between after : Store} {answers later rest : List Consultation} :
      Denotes signals (.arguments args) store answers values between later →
      Denotes signals (.value arg) between later [value] after rest →
      Denotes signals (.arguments (arg :: args)) store answers (value :: values) after rest

theorem Node.hostCall?_of_literal? {node : Node} {literal : Literal}
    (h : node.literal? = some literal) : node.hostCall? = none := by
  cases node with
  | call | methodCall => cases h
  | _ => rfl

theorem Phrase.Denotes.unique {signals : List String} {phrase : Phrase} {store after after' : Store}
    {answers rest rest' : List Consultation} {values values' : List Value}
    (h : phrase.Denotes signals store answers values after rest)
    (h' : phrase.Denotes signals store answers values' after' rest') :
    values = values' ∧ after = after' ∧ rest = rest' := by
  induction h generalizing values' after' rest' with
  | literal hl =>
    cases h' with
    | literal hl' =>
      cases hl.symm.trans hl'
      exact ⟨rfl, rfl, rfl⟩
    | call hc | again hc => cases (hostCall?_of_literal? hl).symm.trans hc
    | _ => cases hl
  | ident hread =>
    cases h' with
    | ident hread' =>
      cases hread.symm.trans hread'
      exact ⟨rfl, rfl, rfl⟩
    | literal hl => cases hl
    | call hc | again hc => cases hc
  | signal hs hcompare =>
    cases h' with
    | signal _ hcompare' =>
      cases hcompare.symm.trans hcompare'
      exact ⟨rfl, rfl, rfl⟩
    | binary hs' => cases hs.symm.trans hs'
    | literal hl => cases hl
    | call hc | again hc => cases hc
  | binary hs _ _ hop ih₁ ih₂ =>
    cases h' with
    | binary _ h₁ h₂ hop' =>
      obtain ⟨⟨⟩, rfl, rfl⟩ := ih₁ h₁
      obtain ⟨⟨⟩, rfl, rfl⟩ := ih₂ h₂
      cases hop.symm.trans hop'
      exact ⟨rfl, rfl, rfl⟩
    | signal hs' => cases hs.symm.trans hs'
    | literal hl => cases hl
    | call hc | again hc => cases hc
  | call hc _ hcallee _ hreply hresult ih =>
    cases h' with
    | call hc' hargs hcallee' _ hreply' hresult' =>
      cases hc.symm.trans hc'
      obtain ⟨rfl, rfl, hrest⟩ := ih hargs
      cases hrest
      cases hcallee.symm.trans hcallee'
      cases hreply.symm.trans hreply'
      cases hresult.symm.trans hresult'
      exact ⟨rfl, rfl, rfl⟩
    | again hc' hargs _ _ hreply' =>
      cases hc.symm.trans hc'
      obtain ⟨-, -, hrest⟩ := ih hargs
      cases hrest
      cases hreply.symm.trans hreply'
      cases hresult
    | literal hl => cases (hostCall?_of_literal? hl).symm.trans hc
    | _ => cases hc
  | again hc _ hcallee _ hreply _ ih₁ ih₂ =>
    cases h' with
    | again hc' hargs hcallee' _ _ hrest' =>
      cases hc.symm.trans hc'
      obtain ⟨rfl, rfl, hrest⟩ := ih₁ hargs
      cases hrest
      cases hcallee.symm.trans hcallee'
      exact ih₂ hrest'
    | call hc' hargs _ _ hreply' hresult =>
      cases hc.symm.trans hc'
      obtain ⟨-, -, hrest⟩ := ih₁ hargs
      cases hrest
      cases hreply.symm.trans hreply'
      cases hresult
    | literal hl => cases (hostCall?_of_literal? hl).symm.trans hc
    | _ => cases hc
  | group _ ih =>
    cases h' with
    | group h => exact ih h
    | literal hl => cases hl
    | call hc | again hc => cases hc
  | negate _ ih =>
    cases h' with
    | negate h =>
      obtain ⟨⟨⟩, rfl, rfl⟩ := ih h
      exact ⟨rfl, rfl, rfl⟩
    | literal hl => cases hl
    | call hc | again hc => cases hc
  | path hnames hread hfold =>
    cases h' with
    | path hnames' hread' hfold' =>
      cases hnames.symm.trans hnames'
      cases hread.symm.trans hread'
      cases hfold.symm.trans hfold'
      exact ⟨rfl, rfl, rfl⟩
    | literal hl => cases hl
    | call hc | again hc => cases hc
  | nil =>
    cases h'
    exact ⟨rfl, rfl, rfl⟩
  | cons _ _ ih₁ ih₂ =>
    cases h' with
    | cons h₁ h₂ =>
      obtain ⟨rfl, rfl, rfl⟩ := ih₁ h₁
      obtain ⟨⟨⟩, rfl, rfl⟩ := ih₂ h₂
      exact ⟨rfl, rfl, rfl⟩

theorem Eval.pure_apply_inj {α : Type} {a b : α} {store after : Store}
    (h : (pure a : Eval α) store = some (.ok b, after)) : a = b ∧ store = after := by
  cases h
  exact ⟨rfl, rfl⟩

def Consultation.atOnce? (consultation : Consultation) : Option Consultation :=
  match consultation.reply.outcome with
  | .ok answer => answer.result?.map fun result =>
    { consultation with reply := { consultation.reply with outcome := .ok (.value result) } }
  | .error _ => none

def Consultation.Silent (objects : Objects) (consultation : Consultation) : Prop :=
  consultation.reply.writes = [] ∧ consultation.objects = objects

def Objects.LookedUp (objects : Objects) : Prop :=
  ∀ ref object found, objects.resolve ref = .ok (object, found) → found = objects

def Eval.Keeps {α : Type} (store : Store) (eval : Eval α) : Prop :=
  ∀ a after, eval store = some (.ok a, after) → after = store

namespace Eval

variable {α β : Type} {store : Store} {pos : Option SourcePos}

theorem keeps_pure (a : α) : Keeps store (pure a : Eval α) :=
  fun _ _ h => (pure_apply_inj h).2.symm

theorem keeps_fail (fault : RunFault) : Keeps store (fail pos fault : Eval α) := nofun

theorem keeps_ofExcept (result : Except RunFault α) : Keeps store (ofExcept pos result) := by
  cases result with
  | ok a => exact keeps_pure a
  | error fault => exact keeps_fail fault

theorem Keeps.bind {eval : Eval α} {rest : α → Eval β} (h : Keeps store eval)
    (hrest : ∀ a, Keeps store (rest a)) : Keeps store (eval >>= rest) := by
  intro b after hb
  rw [bind_apply] at hb
  split at hb
  · cases hb
  · next a middle ha =>
    obtain rfl := h a middle ha
    exact hrest a b after hb
  · cases hb

theorem keeps_operate (op : Operator) (x y : Value) : Keeps store (operate pos op x y) := by
  intro value after h
  exact keeps_ofExcept (Value.apply store.objects op x y) value after h

theorem keeps_signalComparison (signals : List String) (op : Operator) (right : Node) :
    Keeps store (signalComparison signals op right) := by
  have hundefined : Keeps store (undefined : Eval Value) := nofun
  cases right with
  | ident | str =>
    cases op with
    | eq | ne => exact keeps_pure _
    | _ => exact hundefined
  | _ => exact hundefined

variable (h : store.objects.LookedUp)

include h

theorem keeps_resolve (ref : ObjectRef Value) : Keeps store (resolve pos ref) := by
  intro object after hresolve
  rw [resolve_apply] at hresolve
  split at hresolve
  · next hfound =>
    cases hresolve
    rw [h _ _ _ hfound]
  · cases hresolve

theorem keeps_read (name : String) : Keeps store (read pos name) := by
  intro value after hread
  rw [read_eq] at hread
  split at hread
  · cases hread
  · next found _ =>
    cases found with
    | object ref => exact (keeps_resolve h ref).bind (fun _ => keeps_pure _) _ _ hread
    | _ => exact keeps_pure _ _ _ hread

theorem keeps_property (value : Value) (name : String) : Keeps store (property pos value name) := by
  cases value with
  | record fields => exact keeps_ofExcept _
  | object ref => exact (keeps_resolve h ref).bind fun _ => keeps_ofExcept _
  | _ => exact keeps_fail _

theorem keeps_properties (names : List String) (value : Value) :
    Keeps store (names.foldlM (property pos) value) := by
  induction names generalizing value with
  | nil => exact keeps_pure value
  | cons name names ih => exact (keeps_property h value name).bind ih

theorem keeps_receiver (name : String) : Keeps store (receiver pos name) := by
  intro found after hreceiver
  rw [receiver_eq] at hreceiver
  cases hlookup : store.vars.lookup? name with
  | none =>
    rw [hlookup] at hreceiver
    exact keeps_fail _ _ _ hreceiver
  | some value =>
    rw [hlookup] at hreceiver
    cases value with
    | record fields => exact keeps_pure _ _ _ hreceiver
    | object ref => exact (keeps_resolve h ref).bind (fun _ => keeps_pure _) _ _ hreceiver
    | _ => exact keeps_fail _ _ _ hreceiver

end Eval

theorem Node.keeps_callee {node : Node} {name : String} {args : List Node}
    {callee : Eval (Option Value)} {store : Store} (h : store.objects.LookedUp)
    (hnode : node.hostCall? = some (name, args, callee)) : callee.Keeps store := by
  cases node with
  | call =>
    cases hnode
    exact Eval.keeps_pure _
  | methodCall =>
    cases hnode
    exact (Eval.keeps_receiver h _).bind fun _ => Eval.keeps_pure _
  | _ => cases hnode

theorem Store.consulted_of_silent {store : Store} {consultation : Consultation}
    (h : consultation.Silent store.objects) : store.consulted consultation = store := by
  rw [consulted, h.1, h.2]
  rfl

theorem Phrase.Denotes.exists_at_once {signals : List String} {phrase : Phrase} {store after : Store}
    {answers rest : List Consultation} {values : List Value}
    (h : phrase.Denotes signals store answers values after rest) (hobjects : store.objects.LookedUp)
    (hsilent : ∀ consultation ∈ answers, consultation.Silent store.objects) :
    after = store ∧ ∃ heard plain, answers = heard ++ rest ∧
      plain.Sublist (heard.filterMap Consultation.atOnce?) ∧
      ∀ tail, phrase.Denotes signals store (plain ++ tail) values store tail := by
  induction h with
  | literal hl => exact ⟨rfl, [], [], rfl, .slnil, fun _ => .literal hl⟩
  | ident hread =>
    obtain rfl := Eval.keeps_read hobjects _ _ _ hread
    exact ⟨rfl, [], [], rfl, .slnil, fun _ => .ident hread⟩
  | signal hs hcompare =>
    obtain rfl := Eval.keeps_signalComparison _ _ _ _ _ hcompare
    exact ⟨rfl, [], [], rfl, .slnil, fun _ => .signal hs hcompare⟩
  | binary hs _ _ hop ih₁ ih₂ =>
    obtain ⟨rfl, heard₁, plain₁, rfl, hsub₁, hd₁⟩ := ih₁ hobjects hsilent
    obtain ⟨rfl, heard₂, plain₂, rfl, hsub₂, hd₂⟩ :=
      ih₂ hobjects fun c hc => hsilent c (List.mem_append_right _ hc)
    obtain rfl := Eval.keeps_operate _ _ _ _ _ hop
    refine ⟨rfl, heard₁ ++ heard₂, plain₁ ++ plain₂, (List.append_assoc ..).symm, ?_, fun tail => ?_⟩
    · rw [List.filterMap_append]
      exact hsub₁.append hsub₂
    · rw [List.append_assoc]
      exact .binary hs (hd₁ _) (hd₂ _) hop
  | @call _ _ _ _ _ _ _ _ _ answer result _ rest consultation hnode _ hcallee hcall hreply hresult ih =>
    obtain ⟨rfl, heard, plain, rfl, hsub, hd⟩ := ih hobjects hsilent
    obtain rfl := Node.keeps_callee hobjects hnode _ _ hcallee
    have hquiet := hsilent consultation (List.mem_append_right _ List.mem_cons_self)
    have hstore := Store.consulted_of_silent hquiet
    let answered : Consultation :=
      { consultation with reply := { consultation.reply with outcome := .ok (.value result) } }
    have hanswered : consultation.atOnce? = some answered := by
      rw [Consultation.atOnce?, hreply]
      exact congrArg (Option.map _) hresult
    refine ⟨hstore, heard ++ [consultation], plain ++ [answered], by simp, ?_, fun tail => ?_⟩
    · rw [List.filterMap_append, List.filterMap_cons_some hanswered]
      exact hsub.append (.refl _)
    · have hdenotes := Phrase.Denotes.call hnode (hd ([answered] ++ tail)) hcallee hcall rfl rfl
      rw [Store.consulted_of_silent (show answered.Silent _ from hquiet)] at hdenotes
      rwa [List.append_assoc]
  | @again _ _ _ _ _ _ _ _ _ _ _ _ _ later rest consultation hnode _ hcallee hcall hreply _ ih₁ ih₂ =>
    obtain ⟨rfl, heard₁, plain₁, rfl, -, -⟩ := ih₁ hobjects hsilent
    obtain rfl := Node.keeps_callee hobjects hnode _ _ hcallee
    have hquiet := hsilent consultation (List.mem_append_right _ List.mem_cons_self)
    rw [Store.consulted_of_silent hquiet] at ih₂
    obtain ⟨rfl, heard₂, plain₂, rfl, hsub, hd⟩ := ih₂ hobjects fun c hc =>
      hsilent c (List.mem_append_right _ (List.mem_cons_of_mem _ hc))
    -- of the attempt that was put off nothing is left
    have hlater : heard₂.Sublist (heard₁ ++ consultation :: heard₂) :=
      (List.sublist_cons_self ..).trans (List.sublist_append_right ..)
    exact ⟨rfl, heard₁ ++ consultation :: heard₂, plain₂, by simp, hsub.trans (hlater.filterMap _), hd⟩
  | group _ ih =>
    obtain ⟨hstore, heard, plain, hheard, hsub, hd⟩ := ih hobjects hsilent
    exact ⟨hstore, heard, plain, hheard, hsub, fun tail => .group (hd tail)⟩
  | negate _ ih =>
    obtain ⟨hstore, heard, plain, hheard, hsub, hd⟩ := ih hobjects hsilent
    exact ⟨hstore, heard, plain, hheard, hsub, fun tail => .negate (hd tail)⟩
  | path hnames hread hfold =>
    obtain rfl := Eval.keeps_read hobjects _ _ _ hread
    obtain rfl := Eval.keeps_properties hobjects _ _ _ _ hfold
    exact ⟨rfl, [], [], rfl, .slnil, fun _ => .path hnames hread hfold⟩
  | nil => exact ⟨rfl, [], [], rfl, .slnil, fun _ => .nil⟩
  | cons _ _ ih₁ ih₂ =>
    obtain ⟨rfl, heard₁, plain₁, rfl, hsub₁, hd₁⟩ := ih₁ hobjects hsilent
    obtain ⟨rfl, heard₂, plain₂, rfl, hsub₂, hd₂⟩ :=
      ih₂ hobjects fun c hc => hsilent c (List.mem_append_right _ hc)
    refine ⟨rfl, heard₁ ++ heard₂, plain₁ ++ plain₂, (List.append_assoc ..).symm, ?_, fun tail => ?_⟩
    · rw [List.filterMap_append]
      exact hsub₁.append hsub₂
    · rw [List.append_assoc]
      exact .cons (hd₁ _) (hd₂ _)

end DurableScript
