import DurableScript.Proofs.HiddenNames
import DurableScript.Proofs.Layout
import Mathlib.Data.List.Nodup

namespace DurableScript

open Node

namespace Node

mutual

def located (start : Nat) : Node → List (Nat × Node)
  | branch condition body orElse otherwise pos =>
    let failed := start + valueSize condition + 1 + statementsSize body + 1
    (start, branch condition body orElse otherwise pos) ::
      locatedIn (start + valueSize condition + 1) body ++ locatedElse failed orElse ++
        locatedOtherwise (failed + orElseSize orElse) otherwise
  | countLoop first last step counter body pos =>
    (start, countLoop first last step counter body pos) ::
      locatedIn (start + stepSize step + valueSize first + valueSize last + 5) body
  | eachLoop items item body pos =>
    (start, eachLoop items item body pos) :: locatedIn (start + valueSize items + 14) body
  | whileLoop condition body pos =>
    (start, whileLoop condition body pos) :: locatedIn (start + valueSize condition + 1) body
  | procedure name params body pos =>
    (start, procedure name params body pos) :: locatedIn (start + params.length + 2) body
  | other => [(start, other)]

def locatedIn (start : Nat) : List Node → List (Nat × Node)
  | [] => []
  | first :: rest => located start first ++ locatedIn (start + statementSize first) rest

def locatedElse (start : Nat) : Option Node → List (Nat × Node)
  | none => []
  | some next => located start next

def locatedOtherwise (start : Nat) : Option (List Node) → List (Nat × Node)
  | none => []
  | some body => locatedIn start body

end

end Node

@[simp] def Phrase.names : Phrase → List String
  | value node => node.names
  | arguments args => namesIn args

namespace Clause

@[simp] def names : Clause → List String
  | one _ node => node.names
  | many nodes => namesIn nodes
  | orElse _ next => namesOf next
  | otherwise _ _ last => otherwiseNames last

@[simp] def located (start : Nat) : Clause → List (Nat × Node)
  | one _ node => node.located start
  | many nodes => locatedIn start nodes
  | orElse _ next => locatedElse start next
  | otherwise _ _ last => locatedOtherwise start last

end Clause

def Program.Has (program : Program) (start : Nat) (node : Node) : Prop :=
  ∃ exit? code entries, Lowers (.one exit? node) start code entries ∧ program.Holds start code

def Op.variables : Op → List String
  | pushVariable name | setVariable name | callMethod name .. => [name]
  | _ => []

namespace Node

def roles : Node → List String
  | countLoop _ _ _ none _ _ => ["s", "i"]
  | countLoop .. => ["s"]
  | eachLoop .. => ["a", "i", "c"]
  | _ => []

def hidden (start : Nat) (node : Node) : List String := node.roles.map (loopVariable start)

/-- The instructions with which a loop itself reads and writes its array, step, counter and count, and
their indexes: in front of its body and behind it. -/
def ownOps (start : Nat) : Node → List (Nat × Op)
  | countLoop first last step counter body _ =>
    let name := counter.getD (loopVariable start "i")
    let top := start + stepSize step + 1 + valueSize first + 1
    let turn := top + valueSize last + 3 + statementsSize body
    [(start + stepSize step, .setVariable (loopVariable start "s")),
      (start + stepSize step + 1 + valueSize first, .setVariable name), (top, .pushVariable name),
      (turn, .pushVariable name), (turn + 1, .pushVariable (loopVariable start "s")),
      (turn + 3, .setVariable name)]
  | eachLoop items _ body _ =>
    let array := loopVariable start "a"
    let index := loopVariable start "i"
    let count := loopVariable start "c"
    let opening := start + valueSize items
    let turn := opening + 14 + statementsSize body
    [(opening, .setVariable array), (opening + 2, .setVariable index),
      (opening + 3, .pushVariable array), (opening + 5, .setVariable count),
      (opening + 6, .pushVariable index), (opening + 7, .pushVariable count),
      (opening + 10, .pushVariable index), (opening + 11, .pushVariable array),
      (turn + 1, .pushVariable index), (turn + 3, .setVariable index)]
  | _ => []

theorem eq_of_mem_hidden {start : Nat} {node : Node} {name : String} (h : name ∈ node.hidden start) :
    ∃ role, name = loopVariable start role := by
  obtain ⟨role, -, rfl⟩ := List.mem_map.1 h
  exact ⟨role, rfl⟩

theorem isHidden_of_mem_hidden {start : Nat} {node : Node} {name : String}
    (h : name ∈ node.hidden start) : isHidden name = true := by
  obtain ⟨role, rfl⟩ := eq_of_mem_hidden h
  exact isHidden_loopVariable start role

theorem disjoint_hidden {start other : Nat} {node node' : Node} (h : start ≠ other) :
    List.Disjoint (node.hidden start) (node'.hidden other) := by
  intro name hname hother
  obtain ⟨role, rfl⟩ := eq_of_mem_hidden hname
  obtain ⟨role', hrole⟩ := eq_of_mem_hidden hother
  exact h (loopVariable_inj hrole).1

theorem variables_ownOps (start : Nat) (node : Node) : ∀ entry ∈ node.ownOps start,
    ∀ name ∈ entry.2.variables, name ∈ node.hidden start ∨ name ∈ node.names := by
  cases node with
  | countLoop _ _ _ counter =>
    simp only [ownOps, List.forall_mem_cons, Op.variables]
    cases counter <;> simp [hidden, roles, names]
  | eachLoop =>
    simp only [ownOps, List.forall_mem_cons, Op.variables]
    simp [hidden, roles]
  | _ => exact List.forall_mem_nil _

theorem nodup_hidden (start : Nat) (node : Node) : (node.hidden start).Nodup := by
  have hroles : node.roles.Nodup := by
    cases node with
    | countLoop _ _ _ counter => cases counter <;> simp [roles]
    | eachLoop => simp [roles]
    | _ => exact List.nodup_nil
  exact hroles.map fun _ _ h => (loopVariable_inj h).2

end Node

/-- A hidden variable is one of a loop of these, and the instruction is one with which that loop reads
and writes it. -/
def OwnedBy (sites : List (Nat × Node)) (index : Nat) (instruction : Instruction) : Prop :=
  ∀ name ∈ instruction.op.variables, isHidden name = true → ∃ site ∈ sites,
    name ∈ site.2.hidden site.1 ∧ (index, instruction.op) ∈ site.2.ownOps site.1

theorem owned_of_discreet {sites : List (Nat × Node)} {index : Nat} {instruction : Instruction}
    (h : Discreet instruction.op.variables) : OwnedBy sites index instruction :=
  fun name hname hhidden => nomatch hhidden.symm.trans (h name hname)

theorem owned_ownOps {node : Node} (hnames : Discreet node.names) (start : Nat)
    (pos : Option SourcePos) :
    ∀ entry ∈ node.ownOps start, OwnedBy [(start, node)] entry.1 ⟨entry.2, pos⟩ := by
  intro entry hentry name hname hhidden
  refine ⟨_, List.mem_singleton_self _, ?_, hentry⟩
  obtain hmem | hmem := variables_ownOps start node entry hentry name hname
  · exact hmem
  · cases hhidden.symm.trans (hnames name hmem)

theorem OwnedBy.mono {sites others : List (Nat × Node)} {start : Nat} {code : List Instruction}
    (h : Along (OwnedBy sites) start code) (hsub : sites ⊆ others) :
    Along (OwnedBy others) start code :=
  Along.mono h fun _ _ h name hname hhidden =>
    let ⟨site, hsite, howned⟩ := h name hname hhidden
    ⟨site, hsub hsite, howned⟩

structure Sites (start : Nat) (code : List Instruction) (sites : List (Nat × Node)) : Prop where
  sorted : sites.Pairwise fun site other => site.1 < other.1
  within : ∀ site ∈ sites, start ≤ site.1 ∧ site.1 < start + code.length
  discreet : ∀ site ∈ sites, Discreet site.2.names
  lowers : ∀ P, Along P start code → ∀ site ∈ sites, ∃ exit? code entries,
    Lowers (.one exit? site.2) site.1 code entries ∧ Along P site.1 code
  owned : Along (OwnedBy sites) start code

namespace Sites

variable {start : Nat} {code later : List Instruction} {sites others : List (Nat × Node)}
  {entries : List (String × Nat)}

theorem plain (h : Along (OwnedBy []) start code) : Sites start code [] where
  sorted := .nil
  within := nofun
  discreet := nofun
  lowers := nofun
  owned := h

theorem append {next : Nat} (h : Sites start code sites) (h' : Sites next later others)
    (hnext : start + code.length = next) : Sites start (code ++ later) (sites ++ others) where
  sorted := List.pairwise_append.2 ⟨h.sorted, h'.sorted, fun site hsite other hother =>
    Nat.lt_of_lt_of_le (h.within site hsite).2 (hnext ▸ (h'.within other hother).1)⟩
  within := by
    rw [List.forall_mem_append, List.length_append]
    refine ⟨fun site hsite => ?_, fun site hsite => ?_⟩
    · have := h.within site hsite
      omega
    · have := h'.within site hsite
      omega
  discreet := List.forall_mem_append.2 ⟨h.discreet, h'.discreet⟩
  lowers P hcode := by
    obtain ⟨hcode, hlater⟩ := Along.append_iff.1 hcode
    exact List.forall_mem_append.2 ⟨h.lowers P hcode, h'.lowers P (hnext ▸ hlater)⟩
  owned := Along.append_iff.2 ⟨OwnedBy.mono h.owned (List.subset_append_left _ _),
    hnext ▸ OwnedBy.mono h'.owned (List.subset_append_right _ _)⟩

theorem around {exit? : Option Nat} {node : Node} {whole before after : List Instruction}
    {opening : Nat} (hlowers : Lowers (.one exit? node) start whole entries)
    (hnames : Discreet node.names) (h : Sites opening code sites)
    (hwhole : whole = before ++ code ++ after) (hbefore : Along (OwnedBy [(start, node)]) start before)
    (hafter : Along (OwnedBy [(start, node)]) (opening + code.length) after)
    (hopening : start + before.length = opening) (hlt : start < opening) :
    Sites start whole ((start, node) :: sites) := by
  subst hwhole hopening
  have hself : [(start, node)] ⊆ (start, node) :: sites := List.cons_subset_cons _ (List.nil_subset _)
  refine ⟨List.pairwise_cons.2 ⟨fun site hsite => ?_, h.sorted⟩, ?_,
    List.forall_mem_cons.2 ⟨hnames, h.discreet⟩, fun P hcode => ?_, ?_⟩
  · exact Nat.lt_of_lt_of_le hlt (h.within site hsite).1
  · simp only [List.forall_mem_cons, List.length_append]
    refine ⟨by omega, fun site hsite => ?_⟩
    have := h.within site hsite
    omega
  · exact List.forall_mem_cons.2 ⟨⟨exit?, _, entries, hlowers, hcode⟩,
      h.lowers P (Along.append_iff.1 (Along.append_iff.1 hcode).1).2⟩
  · rw [Along.append_iff, Along.append_iff, List.length_append, ← Nat.add_assoc]
    exact ⟨⟨OwnedBy.mono hbefore hself, OwnedBy.mono h.owned (List.subset_cons_self _ _)⟩,
      OwnedBy.mono hafter hself⟩

theorem single {exit? : Option Nat} {node : Node}
    (hlowers : Lowers (.one exit? node) start code entries) (hnames : Discreet node.names)
    (howned : Along (OwnedBy [(start, node)]) start code) (hne : 0 < code.length) :
    Sites start code [(start, node)] :=
  .around hlowers hnames (plain (show Along _ (start + code.length) [] from trivial)) (by simp) howned
    (show Along _ _ [] from trivial) rfl (by omega)

theorem eq_of_mem_hidden (h : Sites start code sites) {site other : Nat × Node} {name : String}
    (hsite : site ∈ sites) (hother : other ∈ sites) (hname : name ∈ site.2.hidden site.1)
    (hname' : name ∈ other.2.hidden other.1) : site = other := by
  have hnodup : (sites.map Prod.fst).Nodup := List.pairwise_map.2 (h.sorted.imp Nat.ne_of_lt)
  refine List.inj_on_of_nodup_map hnodup hsite hother ?_
  by_contra hne
  exact disjoint_hidden hne hname hname'

end Sites

section Values

theorem LowersValue.discreet {phrase : Phrase} {start : Nat} {code : List Instruction}
    (h : LowersValue phrase start code) (hnames : Discreet phrase.names) :
    ∀ instruction ∈ code, Discreet instruction.op.variables := by
  induction h with
  | literal | signal => simp [Op.variables]
  | ident => simpa [Op.variables, names] using hnames
  | binary _ _ _ ih₁ ih₂ =>
    simp only [Phrase.names, names, Discreet.append_iff] at hnames
    simpa [or_imp, forall_and, Op.variables] using ⟨ih₁ hnames.1, ih₂ hnames.2⟩
  | call _ ih | negate _ ih => simpa [or_imp, forall_and, Op.variables] using ih hnames
  | methodCall _ ih =>
    simp only [Phrase.names, names, Discreet.cons_iff] at hnames
    simpa [or_imp, forall_and, Op.variables] using ⟨ih hnames.2, hnames.1⟩
  | group _ ih => exact ih hnames
  | path h =>
    have hlast := hnames
    rw [Phrase.names, names, ← List.head?_reverse, h] at hlast
    refine List.forall_mem_cons.2 ⟨by simpa [Op.variables] using hlast, fun instruction hi => ?_⟩
    obtain ⟨op, hop, rfl⟩ := List.mem_map.1 hi
    obtain ⟨property, -, rfl⟩ := List.mem_map.1 hop
    exact .nil
  | nil => simp
  | cons _ _ ih₁ ih₂ =>
    simp only [Phrase.names, namesIn, Discreet.append_iff] at hnames
    exact List.forall_mem_append.2 ⟨ih₁ hnames.2, ih₂ hnames.1⟩

theorem LowersValue.owned {phrase : Phrase} {start : Nat} {code : List Instruction}
    (h : LowersValue phrase start code) (hnames : Discreet phrase.names)
    (sites : List (Nat × Node)) : Along (OwnedBy sites) start code :=
  .of_get fun _ instruction hi =>
    owned_of_discreet (h.discreet hnames instruction (List.mem_of_getElem? hi))

end Values

theorem Sites.ending {phrase : Phrase} {node : Node} {start : Nat} {code : List Instruction} {op : Op}
    {pos : Option SourcePos} {entries : List (String × Nat)} (hv : LowersValue phrase start code)
    (hphrase : Discreet phrase.names) (hop : Discreet op.variables) (hnames : Discreet node.names)
    (hlowers : Lowers (.one none node) start (code ++ emit pos [op]) entries) :
    Sites start (code ++ emit pos [op]) [(start, node)] :=
  .single hlowers hnames (Along.append_iff.2 ⟨hv.owned hphrase _, owned_of_discreet hop, trivial⟩)
    (by simp)

theorem Lowers.sites {clause : Clause} {start : Nat} {code : List Instruction}
    {entries : List (String × Nat)} (h : Lowers clause start code entries)
    (hnames : Discreet clause.names) : Sites start code (clause.located start) := by
  have hnone {sites : List (Nat × Node)} {index : Nat} {op : Op} {pos : Option SourcePos}
      (h : op.variables = []) : OwnedBy sites index ⟨op, pos⟩ := owned_of_discreet (h ▸ .nil)
  induction h with
  | @branch _ _ _ pos start _ _ test taken next last exit failed _ _ _ he hf hc h₁ h₂ h₃ ih₁ ih₂ ih₃ =>
    have hparts := hnames
    simp only [Clause.names, names, Discreet.append_iff] at hparts
    obtain ⟨⟨⟨hparts, hparts₁⟩, hparts₂⟩, hparts₃⟩ := hparts
    have hn : test.length = valueSize _ := hc.length_eq
    have hn₁ : taken.length = statementsSize _ := h₁.length_eq
    have hn₂ : next.length = orElseSize _ := h₂.length_eq
    have hjump : Sites (failed - 1) (emit pos [.jump exit]) [] := .plain ⟨hnone rfl, trivial⟩
    have htaken := (ih₁ hparts₁).append hjump (by omega)
    have hinner := (htaken.append (ih₂ hparts₂) (by simp; omega)).append (ih₃ hparts₃) (by simp; omega)
    rw [Clause.located, located, ← hn, ← hn₁, ← hn₂, ← hf]
    rw [List.append_nil] at hinner
    have htest (sites : List (Nat × Node)) :
        Along (OwnedBy sites) start (test ++ emit pos [.jumpUnless failed]) :=
      Along.append_iff.2 ⟨hc.owned hparts _, hnone rfl, trivial⟩
    exact .around (.branch he hf hc h₁ h₂ h₃) hnames hinner (by simp) (htest _)
      (show Along _ _ [] from trivial) (by simp; omega) (by omega)
  | assign hv =>
    obtain ⟨hname, hvalue⟩ := Discreet.cons_iff.1 hnames
    exact .ending hv hvalue (Discreet.cons_iff.2 ⟨hname, .nil⟩) hnames (.assign hv)
  | methodCall hv =>
    obtain ⟨hobject, hargs⟩ := Discreet.cons_iff.1 hnames
    exact .ending hv hargs (Discreet.cons_iff.2 ⟨hobject, .nil⟩) hnames (.methodCall hv)
  | call hv => exact .ending hv hnames .nil hnames (.call hv)
  | retValue hv => exact .ending hv hnames .nil hnames (.retValue hv)
  | stop => exact .single .stop hnames ⟨hnone rfl, trivial⟩ Nat.one_pos
  | nothing => exact .single .nothing hnames ⟨hnone rfl, trivial⟩ Nat.one_pos
  | wait => exact .single .wait hnames ⟨hnone rfl, trivial⟩ Nat.one_pos
  | ret => exact .single .ret hnames ⟨hnone rfl, trivial⟩ Nat.one_pos
  | @countLoop start first last step _ _ pos stepped initial limit _ _ _ _ top _ hstep hcounter htop
      hafter hs hf hl h ih =>
    have hparts := hnames
    simp only [Clause.names, names, Discreet.append_iff] at hparts
    obtain ⟨⟨⟨⟨hfirst, hlast⟩, hstepped⟩, -⟩, hbody⟩ := hparts
    have hns : stepped.length = valueSize _ := hs.length_eq
    have hnf : initial.length = valueSize _ := hf.length_eq
    have hnl : limit.length = valueSize _ := hl.length_eq
    have hnb : _ = statementsSize _ := h.length_eq
    have hown := owned_ownOps hnames start pos
    rw [← stepSize_eq] at hns
    simp only [ownOps, ← hns, ← hnf, ← hnl, ← hnb, ← htop, ← hcounter, ← hstep,
      List.forall_mem_cons] at hown
    obtain ⟨hown₁, hown₂, hown₃, hown₄, hown₅, hown₆, -⟩ := hown
    have hstepped : Discreet (step.getD (.int 1 pos)).names := by
      cases step with
      | none => exact .nil
      | some => exact hstepped
    have hinside : start + stepped.length + initial.length + limit.length + 5 =
      top + limit.length + 3 := by omega
    rw [Clause.located, located, ← hns, ← hnf, ← hnl, hinside]
    refine .around (.countLoop hstep hcounter htop hafter hs hf hl h) hnames (ih hbody) rfl ?_
      ⟨hown₄, hown₅, hnone rfl, hown₆, hnone rfl, trivial⟩ (by simp; omega) (by omega)
    simp only [Along.append_iff, emit_cons, emit_nil, Along.cons_iff, Along.nil, and_true,
      List.length_append, List.length_cons, List.length_nil, ← Nat.add_assoc, Nat.zero_add, ← htop]
    exact ⟨⟨⟨⟨⟨hs.owned hstepped _, hown₁⟩, hf.owned hfirst _⟩, hown₂, hown₃⟩, hl.owned hlast _⟩,
      hnone rfl, hnone rfl⟩
  | @eachLoop start _ _ _ pos source _ _ _ _ _ top _ harray hindex hcount htop hafter hv h ih =>
    have hparts := hnames
    simp only [Clause.names, names, Discreet.append_iff, Discreet.cons_iff] at hparts
    obtain ⟨⟨hitem, hsource⟩, hbody⟩ := hparts
    have hnv : source.length = valueSize _ := hv.length_eq
    have hnb : _ = statementsSize _ := h.length_eq
    have hown := owned_ownOps hnames start pos
    have hinside : start + source.length + 14 = top + 8 := by omega
    simp only [ownOps, ← hnv, ← hnb, ← harray, ← hindex, ← hcount, hinside,
      List.forall_mem_cons] at hown
    obtain ⟨h₁, h₂, h₃, h₄, h₅, h₆, h₇, h₈, h₉, h₁₀, -⟩ := hown
    rw [Clause.located, located, ← hnv, hinside]
    refine .around (.eachLoop harray hindex hcount htop hafter hv h) hnames (ih hbody) rfl
      (Along.append_iff.2 ⟨hv.owned hsource _, h₁, hnone rfl, h₂, h₃, hnone rfl, h₄, h₅, h₆, hnone rfl,
        hnone rfl, h₇, h₈, hnone rfl, ?_, trivial⟩)
      ⟨hnone rfl, h₉, hnone rfl, h₁₀, hnone rfl, trivial⟩ (by simp; omega) (by omega)
    exact owned_of_discreet (Discreet.cons_iff.2 ⟨hitem, .nil⟩)
  | @whileLoop start _ _ _ test _ _ _ hafter hv h ih =>
    have hparts := hnames
    simp only [Clause.names, names, Discreet.append_iff] at hparts
    have hn : test.length = valueSize _ := hv.length_eq
    rw [Clause.located, located, ← hn]
    exact .around (.whileLoop hafter hv h) hnames (ih hparts.2) rfl
      (Along.append_iff.2 ⟨hv.owned hparts.1 _, hnone rfl, trivial⟩) ⟨hnone rfl, trivial⟩
      (by simp; omega) (by omega)
  | @procedure start name params body pos _ _ _ hafter h ih =>
    have hparts := hnames
    simp only [Clause.names, names, Discreet.append_iff] at hparts
    refine .around (.procedure hafter h) hnames (ih hparts.2) rfl ?_ ⟨hnone rfl, trivial⟩
      (by simp; omega) (by omega)
    refine ⟨hnone rfl, hnone rfl, .of_get fun _ instruction hi => owned_of_discreet ?_⟩
    obtain ⟨op, hop, rfl⟩ := List.mem_map.1 (List.mem_of_getElem? hi)
    obtain ⟨param, hparam, rfl⟩ := List.mem_map.1 hop
    exact Discreet.cons_iff.2 ⟨hparts.1 param (List.mem_reverse.1 hparam), .nil⟩
  | nil | noElse | noOtherwise => exact .plain trivial
  | @cons _ _ _ code _ _ _ h₁ _ ih₁ ih₂ =>
    have hn : code.length = statementSize _ := h₁.length_eq
    simp only [Clause.names, namesIn, Discreet.append_iff] at hnames
    rw [Clause.located, locatedIn, ← hn]
    exact (ih₁ hnames.1).append (ih₂ hnames.2) rfl
  | someElse _ ih => exact ih hnames
  | someOtherwise _ ih =>
    rw [← List.append_nil (Clause.located _ _)]
    exact (ih hnames).append (.plain ⟨hnone rfl, trivial⟩) rfl

def Node.sites (tree : Node) (before : List Node) : List (Nat × Node) :=
  locatedIn 0 (before ++ tree.topLevel)

/-- In a script without hidden names of its own, the code of loops begins at different places. No two
loops share a hidden name, a loop has each of its own once, and an instruction that reads or writes one
is an instruction of the loop itself. -/
theorem hidden_names_belong_to_their_loops {tree : Node} {before : List Node} {program : Program}
    (h : tree.compile before = .ok program)
    (hnames : Discreet (namesIn (before ++ tree.topLevel))) :
    (tree.sites before).Pairwise (fun site other => site.1 < other.1 ∧
      List.Disjoint (site.2.hidden site.1) (other.2.hidden other.1)) ∧
    (∀ site ∈ tree.sites before, program.Has site.1 site.2 ∧ (site.2.hidden site.1).Nodup) ∧
    ∀ index instruction, program.code[index]? = some instruction →
      ∀ name ∈ instruction.op.variables,
        (isHidden name = true ↔ ∃ site ∈ tree.sites before, name ∈ site.2.hidden site.1) ∧
        ∀ site ∈ tree.sites before, name ∈ site.2.hidden site.1 →
          (index, instruction.op) ∈ site.2.ownOps site.1 := by
  obtain ⟨code, entries, hlowers, rfl⟩ := Lowers.of_compile h
  have hsites : Sites 0 code (tree.sites before) := hlowers.sites hnames
  refine ⟨hsites.sorted.imp fun hlt => ⟨hlt, disjoint_hidden (Nat.ne_of_lt hlt)⟩, ?_, ?_⟩
  · intro site hsite
    exact ⟨hsites.lowers _ (Program.holds_toArray code _) site hsite, nodup_hidden _ _⟩
  · intro index instruction hi name hname
    have howned := hsites.owned.get (by simpa using hi) name hname
    rw [Nat.zero_add] at howned
    refine ⟨⟨fun hhidden => ?_, fun ⟨site, _, hmem⟩ => isHidden_of_mem_hidden hmem⟩,
      fun site hsite hmem => ?_⟩
    · obtain ⟨site, hsite, hmem, -⟩ := howned hhidden
      exact ⟨site, hsite, hmem⟩
    · obtain ⟨other, hother, hmem', hop⟩ := howned (isHidden_of_mem_hidden hmem)
      rwa [hsites.eq_of_mem_hidden hsite hother hmem hmem']

def drumLoop : Node :=
  .countLoop (.int 1 none) (.ident "beat" none) none none [.call "hit" [.ident "beat" none] none] none

def beatLoop : Node := .eachLoop (.ident "beats" none) "beat" [drumLoop] none

def drumming : Node := .root [.procedure "drum" ["beats"] [beatLoop] none] none

def drummingProgram : Program := (drumming.compile []).toOption.getD .empty

theorem hidden_names_belong_to_their_loops_drumming :
    drumming.compile [] = .ok drummingProgram ∧ Discreet (namesIn drumming.topLevel) ∧
      List.Disjoint (beatLoop.hidden 3) (drumLoop.hidden 18) ∧ drummingProgram.Has 18 drumLoop ∧
      drummingProgram.code[21]? = some ⟨.setVariable "_l/18/i", none⟩ ∧
      (21, .setVariable "_l/18/i") ∈ drumLoop.ownOps 18 := by
  have hcompile : drumming.compile [] = .ok drummingProgram := rfl
  have hnames : Discreet (namesIn ([] ++ drumming.topLevel)) := by
    unfold Discreet
    decide
  have hset : drummingProgram.code[21]? = some ⟨.setVariable "_l/18/i", none⟩ := rfl
  have hsites : [(3, beatLoop), (18, drumLoop)].Sublist (drumming.sites []) := by
    simp [drumming, beatLoop, drumLoop, sites, topLevel, locatedIn, located, stepSize, valueSize]
  have hinner : (18, drumLoop) ∈ drumming.sites [] := hsites.subset (by simp)
  obtain ⟨hpairs, hhas, hown⟩ := hidden_names_belong_to_their_loops hcompile hnames
  refine ⟨hcompile, hnames, ?_, (hhas _ hinner).1, hset, ?_⟩
  · exact ((List.pairwise_pair).1 (hpairs.sublist hsites)).2
  · exact (hown 21 _ hset "_l/18/i" (List.mem_singleton_self _)).2 _ hinner
      (List.mem_cons_of_mem _ (List.mem_singleton_self _))

end DurableScript
