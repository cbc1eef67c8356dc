import DurableScript.Proofs.LoopCode
import DurableScript.Proofs.Statements
import Mathlib.Algebra.Group.Int.Defs

namespace DurableScript

open Node Machine

section Loops

variable {scene : Scene} {program : Program} {shape : Nat → Shape} {fuel : Nat} {store : Store}
  {machine : Machine (List HostCall)} {start : Nat} {entries : List (String × Nat)} {place : Place}
  {pos : Option SourcePos} {body : List Node} {inner code : List Instruction} {after : Nat}
  {value step current array : Value} {counter : Option String} {old new : Execution} {index k : Nat}
  {rest items : List Value}

theorem realizes_whileLoop (hc : scene.Staged program shape)
    (ih : ∀ less < fuel, Correct scene program shape less) {condition : Node}
    {test : List Instruction} (hv : LowersValue (.value condition) start test)
    (h : Lowers (.many body) (start + test.length + 1) inner entries)
    (hafter : after = start + test.length + 1 + inner.length + 1)
    (hcode : program.Holds start (test ++ emit pos [.jumpUnless after] ++ inner ++
      emit pos [.jump start])) (hnames : Discreet condition.names) (hnames' : Discreet (namesIn body))
    (hs : Shaped shape (start + test.length + 1) (statementsShapes place body))
    (hruns : RunsAt program machine.execution place)
    (hm : Standing program shape start store machine) :
    Realizes scene.setting (Eval.whileLoop scene fuel condition body) store machine
      (Follows program shape place start after machine) := by
  simp only [Program.Holds, Along.append_iff, List.length_append, length_emit, ← Nat.add_assoc,
    List.length_cons, List.length_nil, Nat.zero_add] at hcode
  obtain ⟨⟨⟨htest, hjump, -⟩, hinner⟩, hback, -⟩ := hcode
  induction fuel generalizing store machine with
  | zero =>
    rw [Eval.whileLoop]
    exact .undefined
  | succ fuel ihf =>
    have hless := ih fuel (Nat.lt_succ_self fuel)
    rw [Eval.whileLoop]
    refine (hless.value hv htest hnames hm).bind fun truth _ m₁ hl₁ => ?_
    refine .after (hl₁.standing.jumpUnless hjump (hc.compiled.jumpUnless_le hjump) hl₁.stack)
      fun m₂ hl₂ => ?_
    have hl := hl₁.trans hl₂
    have hruns₂ := hruns.of_keeps hl.keeps
    by_cases htruth : truth.truthy = true
    · rw [if_pos htruth] at hl ⊢
      refine (hless.statements h hinner hnames' hs hruns₂ hl.standing).bind fun flow _ m₃ hf => ?_
      cases flow with
      | next =>
        have hl₃ : Lands program shape (Within (start + test.length + 1) _) m₂ m₂.stack _ _ m₃ := hf
        rw [hl.stack] at hl₃
        refine .after (hl₃.standing.jump hback (hc.compiled.jump_le hback)) fun m₄ hl₄ => ?_
        rw [hl₃.stack] at hl₄
        have hround := (hl.mono Nowhere.elim).trans (hl₃.trans (hl₄.mono Nowhere.elim))
        refine (ihf (fun less hlt => ih less (Nat.lt_succ_of_lt hlt)) (hruns.of_keeps hround.keeps)
          hround.standing).mono fun _ _ _ hf => ?_
        exact hround.follows (Within.mono (by omega) (by omega)) (Nat.le_refl _) hf
      | returned value => exact .pure (Left.of_keeps hf hl.keeps)
    · rw [if_neg htruth] at hl ⊢
      exact .pure (hl.mono Nowhere.elim)

theorem Frame.get?_of_insert {frame other : Frame} {role : String}
    (h : other.vars = Table.insert (loopVariable start role) value frame.vars) (role' : String) :
    other.get? (loopVariable start role') =
      if role = role' then some value else frame.get? (loopVariable start role') := by
  rw [Frame.get?, h, Table.find?_insert]
  by_cases hrole : role = role'
  · rw [if_pos (congrArg _ hrole), if_pos hrole]
  · rw [if_neg fun hname => hrole (loopVariable_inj hname).2, if_neg hrole]
    rfl

structure Counts (start : Nat) (counter : Option String) (step current : Value)
    (execution : Execution) : Prop where
  step : execution.frame.get? (loopVariable start "s") = some step
  current : counter = none → execution.frame.get? (loopVariable start "i") = some current

theorem Counts.of_keeps {range : Nat → Prop} (h : Counts start counter step current old)
    (hk : old.Keeps range new) (hr : ¬ range start) : Counts start counter step current new :=
  ⟨(hk.running.hidden start "s" hr).trans h.step,
    fun hn => (hk.running.hidden start "i" hr).trans (h.current hn)⟩

theorem lookup?_of_frame {execution : Execution} {name : String}
    (h : execution.frame.get? name = some value) : execution.lookup? name = some value := by
  rw [Execution.lookup?, h]
  rfl

theorem Standing.realizes_currentCount (hm : Standing program shape index store machine)
    (hi : program.code[index]? = some ⟨.pushVariable (counterName start counter), pos⟩)
    (hv : Discreet counter.toList) (hcounts : Counts start counter step current machine.execution) :
    Realizes scene.setting (Eval.currentCount pos counter current) store machine fun value =>
      Lands program shape Nowhere machine (value :: machine.stack) (index + 1) := by
  cases counter with
  | none => exact hm.realizes_touch hi (lookup?_of_frame (hcounts.current rfl))
  | some name => exact hm.realizes_read hi (hv name (List.mem_singleton_self name))

theorem Standing.realizes_keep (hm : Standing program shape index store machine)
    (hi : program.code[index]? = some ⟨.setVariable (counterName start counter), pos⟩)
    (hv : Discreet counter.toList) (hplace : (shape start).place = place)
    (hruns : RunsAt program machine.execution place)
    (hstep : machine.execution.frame.get? (loopVariable start "s") = some step)
    (hstack : machine.stack = value :: rest) :
    Realizes scene.setting (Eval.keep counter value) store machine fun _ after last =>
      Lands program shape (· = start) machine rest (index + 1) after last ∧
        Counts start counter step value last.execution := by
  cases counter with
  | none =>
    refine .after (hm.assignHidden hi (hplace ▸ hruns) hstack) fun last ⟨hl, hvars⟩ => .pure ⟨hl, ?_⟩
    exact ⟨(Frame.get?_of_insert hvars "s").trans hstep, fun _ => Frame.get?_of_insert hvars "i"⟩
  | some name =>
    refine (hm.realizes_assign hi (hv name (List.mem_singleton_self name)) hstack).mono ?_
    intro _ _ last hl
    exact ⟨hl.mono Nowhere.elim, (hl.keeps.running.hidden start "s" id).trans hstep, nofun⟩

theorem realizes_countLoop {loop : CountLoop} (hc : scene.Staged program shape)
    (ih : ∀ less < fuel, Correct scene program shape less) (hlaid : loop.Laid program)
    (hnames : Discreet loop.node.names) (hplace : (shape loop.start).place = place)
    (hs : Shaped shape loop.opening (statementsShapes place loop.body))
    (hruns : RunsAt program machine.execution place)
    (hcounts : Counts loop.start loop.counter step current machine.execution)
    (hm : Standing program shape (loop.begun + 1) store machine) :
    Realizes scene.setting
      (Eval.countLoop scene fuel loop.pos loop.counter loop.last loop.body step current) store machine
      (Follows program shape place loop.start loop.after machine) := by
  simp only [CountLoop.node, names, Discreet.append_iff] at hnames
  obtain ⟨⟨⟨⟨-, hlast⟩, -⟩, hcounter⟩, hbody⟩ := hnames
  obtain ⟨-, hcurrent, -⟩ := hlaid.counted
  obtain ⟨limit, hv, hlimit⟩ := hlaid.last
  obtain ⟨hle, hjump, -⟩ := hlaid.compared
  obtain ⟨inner, entries, h, hinner⟩ := hlaid.body
  obtain ⟨hcurrent', hstep, hadd, hset, hback, -⟩ := hlaid.closed
  have hn : limit.length = loop.last.valueSize := hv.length_eq
  have hclosing : loop.opening + inner.length = loop.closing := by rw [h.length_eq]; rfl
  have hspan := loop.span
  induction fuel generalizing store machine current with
  | zero =>
    rw [Eval.countLoop]
    exact .undefined
  | succ fuel ihf =>
    have hless := ih fuel (Nat.lt_succ_self fuel)
    rw [Eval.countLoop]
    refine (hm.realizes_currentCount hcurrent hcounter hcounts).bind fun now _ m₁ hl₁ => ?_
    refine (hless.value hv hlimit hlast hl₁.standing).bind fun bound _ m₂ hl₂ => ?_
    rw [hl₁.stack, hn] at hl₂
    refine (hl₂.standing.realizes_operate hle hl₂.stack).bind fun truth _ m₃ hl₃ => ?_
    refine .after (hl₃.standing.jumpUnless hjump (hc.compiled.jumpUnless_le hjump) hl₃.stack)
      fun m₄ hl₄ => ?_
    have hl := hl₁.trans (hl₂.trans (hl₃.trans hl₄))
    by_cases htruth : truth.truthy = true
    · rw [if_pos htruth] at hl ⊢
      refine (hless.statements h hinner hbody hs (hruns.of_keeps hl.keeps) hl.standing).bind
        fun flow _ m₅ hf => ?_
      rw [hclosing] at hf
      cases flow with
      | next =>
        have hl₅ : Lands program shape (Within loop.opening loop.closing) m₄ m₄.stack _ _ m₅ := hf
        rw [hl.stack] at hl₅
        have hcounts₅ := (hcounts.of_keeps hl.keeps id).of_keeps hl₅.keeps
          fun hw => by have := hw.1; omega
        refine (hl₅.standing.realizes_currentCount hcurrent' hcounter hcounts₅).bind fun _ _ m₆ hl₆ => ?_
        rw [hl₅.stack] at hl₆
        have hcounts₆ := hcounts₅.of_keeps hl₆.keeps id
        refine (hl₆.standing.realizes_touch hstep (lookup?_of_frame hcounts₆.step)).bind
          fun _ _ m₇ hl₇ => ?_
        rw [hl₆.stack] at hl₇
        refine (hl₇.standing.realizes_operate hadd hl₇.stack).bind fun next _ m₈ hl₈ => ?_
        have hcounts₈ := hcounts₆.of_keeps (hl₇.trans hl₈).keeps id
        have hl₈ := (hl.mono Nowhere.elim).trans
          (hl₅.trans ((hl₆.trans (hl₇.trans hl₈)).mono Nowhere.elim))
        refine (hl₈.standing.realizes_keep hset hcounter hplace (hruns.of_keeps hl₈.keeps)
          hcounts₈.step hl₈.stack).bind fun _ _ m₉ hkept => ?_
        obtain ⟨hl₉, hcounts₉⟩ := hkept
        refine .after (hl₉.standing.jump hback (hc.compiled.jump_le hback)) fun m₁₀ hl₁₀ => ?_
        rw [hl₉.stack] at hl₁₀
        have hround : Lands program shape (Within loop.start loop.after) machine machine.stack _ _ m₁₀ :=
          (hl₈.mono (Within.mono (by omega) (by omega))).trans
            ((hl₉.mono fun i hi => ⟨Nat.le_of_eq hi.symm, by omega⟩).trans
              (hl₁₀.mono Nowhere.elim))
        refine (ihf (fun less hlt => ih less (Nat.lt_succ_of_lt hlt)) (hruns.of_keeps hround.keeps)
          (hcounts₉.of_keeps hl₁₀.keeps id) hround.standing).mono fun _ _ _ hf => ?_
        exact hround.follows (fun _ => id) (Nat.le_refl _) hf
      | returned value => exact .pure (Left.of_keeps hf hl.keeps)
    · rw [if_neg htruth] at hl ⊢
      exact .pure (hl.mono Nowhere.elim)

structure Iterates (start : Nat) (array : Value) (count index : Nat) (execution : Execution) :
    Prop where
  array : execution.frame.get? (loopVariable start "a") = some array
  index : execution.frame.get? (loopVariable start "i") = some (.int (Int64.ofNat index))
  count : execution.frame.get? (loopVariable start "c") = some (.int (Int64.ofNat count))

theorem Iterates.of_keeps {count : Nat} {range : Nat → Prop}
    (h : Iterates start array count index old) (hk : old.Keeps range new) (hr : ¬ range start) :
    Iterates start array count index new :=
  ⟨(hk.running.hidden start "a" hr).trans h.array, (hk.running.hidden start "i" hr).trans h.index,
    (hk.running.hidden start "c" hr).trans h.count⟩

theorem Iterates.of_insert {array : Value} {count index next : Nat} {old new : Execution}
    (h : Iterates start array count index old) (hvars : new.frame.vars =
      Table.insert (loopVariable start "i") (.int (Int64.ofNat next)) old.frame.vars) :
    Iterates start array count next new :=
  ⟨(Frame.get?_of_insert hvars "a").trans h.array, Frame.get?_of_insert hvars "i",
    (Frame.get?_of_insert hvars "c").trans h.count⟩

theorem Value.order_int (left right : Int64) :
    Value.order (.int left) (.int right) = some (compare left.toInt right.toInt) := by
  rw [Value.order, orderPlain, Number.orderInts]
  all_goals nofun

theorem Value.apply_lt_ofNat (objects : Objects) {n : Nat} (hk : k < 2 ^ 63) (hn : n < 2 ^ 63) :
    Value.apply objects .lt (.int (Int64.ofNat k)) (.int (Int64.ofNat n)) =
      .ok (.bool (decide (k < n))) := by
  simp only [apply, order_int, Int64.toInt_ofNat_of_lt hk, Int64.toInt_ofNat_of_lt hn]
  congr 2
  by_cases hlt : k < n
  · simp [hlt, Int.compare_eq_lt]
  · simp [hlt, Int.compare_eq_lt]

theorem Value.apply_add_int (objects : Objects) {left right : Int64}
    (hlow : -2 ^ 63 ≤ left.toInt + right.toInt) (hhigh : left.toInt + right.toInt < 2 ^ 63) :
    Value.apply objects .add (.int left) (.int right) =
      .ok (.int (Int64.ofInt (left.toInt + right.toInt))) := by
  have hexact : Operation.add.whole? left right = some (Int64.ofInt (left.toInt + right.toInt)) := by
    simp only [Operation.whole?, fit?]
    rw [if_pos (by omega)]
  simp [apply, isStr, calculate, number, hexact, bind, Except.bind]

theorem Value.apply_add_one_ofNat (objects : Objects) (hk : k + 1 < 2 ^ 63) :
    Value.apply objects .add (.int 1) (.int (Int64.ofNat k)) =
      .ok (.int (Int64.ofNat (k + 1))) := by
  have hsum : (1 : Int64).toInt + (Int64.ofNat k).toInt = ((k + 1 : Nat) : Int) := by
    have hone : (1 : Int64).toInt = 1 := rfl
    rw [hone, Int64.toInt_ofNat_of_lt (Nat.lt_of_succ_lt hk), Int.add_comm, Int.natCast_succ]
  rw [apply_add_int objects (by omega) (by omega), hsum, Int64.ofInt_eq_ofNat]

theorem Builtin.items_eq {function : Builtin} (h : function.items array = .ok items)
    (other : Builtin) :
    other.items array = .ok items ∧ array.object? = none := by
  cases array with
  | list | record => exact ⟨h, rfl⟩
  | null | bool | int | float | str | object => cases h

theorem Builtin.run_arrayGet {item : Value} (h : arrayGet.items array = .ok items) (hk : k < 2 ^ 63)
    (hitem : items[k]? = some item) (signals : List String) :
    arrayGet.run [array, .int (Int64.ofNat k)] signals = .ok item := by
  have hindex : (Int64.ofNat k).toInt = k := Int64.toInt_ofNat_of_lt hk
  have hrun : arrayGet.run [array, .int (Int64.ofNat k)] signals = (do
      let items ← arrayGet.items array
      return if (Int64.ofNat k).toInt < 0 then .null
        else (items[(Int64.ofNat k).toInt.toNat]?).getD .null) := rfl
  rw [hrun, h, hindex]
  change Except.ok (if (k : Int) < 0 then Value.null else (items[(k : Int).toNat]?).getD .null) = _
  rw [if_neg (by omega), Int.toNat_natCast, hitem, Option.getD_some]

section

variable (hm : Standing program shape index store machine)
include hm

theorem Standing.readPlain {name : String}
    (hi : program.code[index]? = some ⟨.pushVariable name, pos⟩)
    (hget : machine.execution.frame.get? name = some value) (hplain : value.object? = none) :
    ∃ last, Reaches scene.setting machine last ∧
      Lands program shape Nowhere machine (value :: machine.stack) (index + 1) store last := by
  have htouch : Eval.touch pos value store = some (.ok value, store) := by
    cases value with
    | object ref => cases hplain
    | null | bool | int | float | str | list | record => rfl
  exact hm.realizes_touch hi (lookup?_of_frame hget) (.ok value) store htouch

theorem Standing.operatePlain {op : Operator} {left right : Value}
    (hi : program.code[index]? = some ⟨.operate op, pos⟩)
    (hstack : machine.stack = right :: left :: rest)
    (happly : Value.apply store.objects op left right = .ok value) :
    ∃ last, Reaches scene.setting machine last ∧
      Lands program shape Nowhere machine (value :: rest) (index + 1) store last := by
  have hoperate : Eval.operate pos op left right store = some (.ok value, store) := by
    rw [show Eval.operate pos op left right store =
      Eval.ofExcept pos (Value.apply store.objects op left right) store from rfl, happly]
    rfl
  exact hm.realizes_operate hi hstack (.ok value) store hoperate

theorem Standing.callPlain {function : Builtin} {args : List Value}
    (hrun : function.run args scene.signals = .ok value)
    (hi : program.code[index]? = some ⟨.callBuiltin function args.length, pos⟩)
    (hstack : machine.stack = args ++ rest) :
    ∃ last, Reaches scene.setting machine last ∧
      Lands program shape Nowhere machine (value :: rest) (index + 1) store last := by
  refine hm.realizes_callBuiltin args hi hstack (.ok value) store ?_
  rw [hrun]
  rfl

end

theorem Eval.eq_of_touch {found : Value} {after : Store}
    (h : Eval.touch pos value store = some (.ok found, after)) : found = value := by
  cases value with
  | object ref =>
    rw [touch_object_apply] at h
    split at h <;> cases h
    rfl
  | null | bool | int | float | str | list | record =>
    cases h
    rfl

theorem Standing.realizes_items (hm : Standing program shape index store machine)
    (hi : program.code[index]? = some ⟨.callBuiltin .arrayCount 1, pos⟩)
    (hstack : machine.stack = array :: rest) :
    Realizes scene.setting (Eval.ofExcept pos (Builtin.items .arrayCount array)) store machine
      fun items after last => Builtin.items .arrayCount array = .ok items ∧
        Lands program shape Nowhere machine (.int (Int64.ofNat items.length) :: rest) (index + 1)
          after last := by
  have hrun : Builtin.run .arrayCount [array] scene.signals = (do
    let items ← Builtin.items .arrayCount array
    return .int (Int64.ofNat items.length)) := rfl
  intro result after he
  rw [Eval.ofExcept_apply] at he
  cases hitems : Builtin.items .arrayCount array with
  | ok items =>
    rw [hitems] at he hrun
    cases he
    obtain ⟨last, hr, hl⟩ := hm.callPlain hrun hi hstack
    exact ⟨last, hr, rfl, hl⟩
  | error fault =>
    rw [hitems] at he hrun
    cases he
    refine hm.realizes_callBuiltin [array] hi hstack (.error _) store ?_
    rw [hrun]
    rfl

theorem realizes_eachLoop {loop : EachLoop} (hc : scene.Staged program shape)
    (ih : ∀ less < fuel, Correct scene program shape less) (hlaid : loop.Laid program)
    (hnames : Discreet loop.node.names) (hplace : (shape loop.start).place = place)
    (hs : Shaped shape loop.opening (statementsShapes place loop.body))
    (hitems : Builtin.items .arrayGet array = .ok items) (hcount : items.length < 2 ^ 63)
    (hplain : array.object? = none) {remaining : List Value} (hremaining : items.drop index = remaining)
    (hindex : index ≤ items.length) (hruns : RunsAt program machine.execution place)
    (hit : Iterates loop.start array items.length index machine.execution)
    (hm : Standing program shape (loop.given + 6) store machine) :
    Realizes scene.setting (Eval.eachLoop scene fuel loop.item loop.body remaining) store machine
      (Follows program shape place loop.start loop.after machine) := by
  simp only [EachLoop.node, names, List.cons_append, Discreet.cons_iff, Discreet.append_iff] at hnames
  obtain ⟨hitem, -, hbody⟩ := hnames
  obtain ⟨hi₀, hi₁, hi₂, hi₃, hi₄, hi₅, hi₆, -⟩ := hlaid.tested
  have hi₇ := hlaid.assigned
  obtain ⟨inner, entries, h, hinner⟩ := hlaid.body
  obtain ⟨hj₀, hj₁, hj₂, hj₃, hj₄, -⟩ := hlaid.closed
  have hclosing : loop.opening + inner.length = loop.closing := by rw [h.length_eq]; rfl
  have hspan := loop.span
  induction fuel generalizing store machine index remaining with
  | zero =>
    unfold Eval.eachLoop
    exact .undefined
  | succ fuel ihf =>
    have hless := ih fuel (Nat.lt_succ_self fuel)
    have hk : index < 2 ^ 63 := Nat.lt_of_le_of_lt hindex hcount
    refine .after (hm.readPlain hi₀ hit.index rfl) fun m₁ hl₁ => ?_
    refine .after (hl₁.standing.readPlain hi₁ (hit.of_keeps hl₁.keeps id).count rfl) fun m₂ hl₂ => ?_
    rw [hl₁.stack] at hl₂
    refine .after (hl₂.standing.operatePlain hi₂ hl₂.stack
      (Value.apply_lt_ofNat _ hk hcount)) fun m₃ hl₃ => ?_
    refine .after (hl₃.standing.jumpUnless hi₃ (hc.compiled.jumpUnless_le hi₃) hl₃.stack)
      fun m₄ hl₄ => ?_
    have hl := hl₁.trans (hl₂.trans (hl₃.trans hl₄))
    cases remaining with
    | nil =>
      have hend : ¬ index < items.length := Nat.not_lt.2 (List.drop_eq_nil_iff.1 hremaining)
      rw [decide_eq_false hend] at hl
      unfold Eval.eachLoop
      exact .pure (hl.mono Nowhere.elim)
    | cons first remaining =>
      have hfirst : items[index]? = some first := by
        rw [← List.head?_drop, hremaining, List.head?_cons]
      have hlt : index < items.length := (List.getElem?_eq_some_iff.1 hfirst).1
      rw [decide_eq_true hlt] at hl
      have hl : Lands program shape Nowhere machine machine.stack (loop.given + 10) store m₄ := hl
      have hit₄ := hit.of_keeps hl.keeps id
      refine .after (hl.standing.readPlain hi₄ hit₄.index rfl) fun m₅ hl₅ => ?_
      have hit₅ := hit₄.of_keeps hl₅.keeps id
      refine .after (hl₅.standing.readPlain hi₅ hit₅.array hplain) fun m₆ hl₆ => ?_
      rw [hl₅.stack] at hl₆
      refine .after (hl₆.standing.callPlain (Builtin.run_arrayGet hitems hk hfirst _) hi₆ hl₆.stack)
        fun m₇ hl₇ => ?_
      unfold Eval.eachLoop
      refine (hl₇.standing.realizes_assign hi₇ hitem hl₇.stack).bind fun _ _ m₈ hl₈ => ?_
      have hl₈ : Lands program shape Nowhere machine m₄.stack loop.opening _ m₈ :=
        hl.trans (hl₅.trans (hl₆.trans (hl₇.trans hl₈)))
      rw [hl.stack] at hl₈
      have hit₈ := hit.of_keeps hl₈.keeps id
      refine (hless.statements h hinner hbody hs (hruns.of_keeps hl₈.keeps) hl₈.standing).bind
        fun flow _ m₉ hf => ?_
      rw [hclosing] at hf
      cases flow with
      | next =>
        have hl₉ : Lands program shape (Within loop.opening loop.closing) m₈ m₈.stack _ _ m₉ := hf
        rw [hl₈.stack] at hl₉
        have hit₉ := hit₈.of_keeps hl₉.keeps fun hw => by have := hw.1; omega
        refine .after (hl₉.standing.pushValue hj₀) fun n₁ hk₁ => ?_
        refine .after (hk₁.standing.readPlain hj₁ (hit₉.of_keeps hk₁.keeps id).index rfl)
          fun n₂ hk₂ => ?_
        rw [hl₉.stack] at hk₁
        rw [hk₁.stack] at hk₂
        refine .after (hk₂.standing.operatePlain hj₂ hk₂.stack
          (Value.apply_add_one_ofNat _ (by omega))) fun n₃ hk₃ => ?_
        have hk := hk₁.trans (hk₂.trans hk₃)
        have hlk := (hl₈.mono Nowhere.elim).trans (hl₉.trans (hk.mono Nowhere.elim))
        refine .after (hk₃.standing.assignHidden hj₃ (hplace ▸ hruns.of_keeps hlk.keeps) hk₃.stack)
          fun n₄ hset => ?_
        obtain ⟨hk₄, hvars⟩ := hset
        refine .after (hk₄.standing.jump hj₄ (hc.compiled.jump_le hj₄)) fun n₅ hk₅ => ?_
        rw [hk₄.stack] at hk₅
        have hit₅ := ((hit₉.of_keeps hk.keeps id).of_insert hvars).of_keeps hk₅.keeps id
        have hround : Lands program shape (Within loop.start loop.after) machine machine.stack _ _ n₅ :=
          (hlk.mono (Within.mono (by omega) (by omega))).trans
            ((hk₄.mono fun i hi => ⟨Nat.le_of_eq hi.symm, by omega⟩).trans (hk₅.mono Nowhere.elim))
        have hnext : items.drop (index + 1) = remaining := by
          rw [← List.tail_drop, hremaining, List.tail_cons]
        refine (ihf (fun less hless => ih less (Nat.lt_succ_of_lt hless)) hnext hlt
          (hruns.of_keeps hround.keeps) hit₅ hround.standing).mono fun _ _ _ hf => ?_
        exact hround.follows (fun _ => id) (Nat.le_refl _) hf
      | returned value => exact .pure (Left.of_keeps hf hl₈.keeps)

theorem Correct.countLoop_succ (loop : CountLoop) (hc : scene.Staged program shape)
    (ih : ∀ less < fuel + 1, Correct scene program shape less)
    (h : Lowers (.one none loop.node) loop.start code entries)
    (hcode : program.Holds loop.start code) (hnames : Discreet loop.node.names)
    (hs : Shaped shape loop.start (statementShapes place loop.node))
    (hruns : RunsAt program machine.execution place)
    (hm : Standing program shape loop.start store machine) :
    Realizes scene.setting (Eval.statement scene (fuel + 1) loop.node) store machine
      (Follows program shape place loop.start (loop.start + code.length) machine) := by
  have hless := ih fuel (Nat.lt_succ_self fuel)
  have hlaid := CountLoop.Laid.of_has ⟨none, code, entries, h, hcode⟩
  have hspan := loop.span
  rw [loop.length_eq h]
  have hall := hnames
  simp only [CountLoop.node, names, Discreet.append_iff] at hall
  obtain ⟨⟨⟨⟨hfirst, -⟩, hstep⟩, hcounter⟩, -⟩ := hall
  unfold CountLoop.node at h hs ⊢
  cases h with
  | @countLoop _ _ _ _ _ _ _ stepped initial limit _ _ _ _ top _ _ _ ht _ hv₁ hv₂ hv₃ =>
    have hn₁ : (valueDepths 0 _).length = stepped.length := hv₁.length_depths 0
    have hn₂ : (valueDepths 0 _).length = initial.length := hv₂.length_depths 0
    have hn₃ : (valueDepths 1 _).length = limit.length := hv₃.length_depths 1
    have hm₁ : stepped.length = stepSize loop.step := hv₁.length_eq.trans (stepSize_eq _ _).symm
    have hm₂ : initial.length = loop.first.valueSize := hv₂.length_eq
    have hm₃ : limit.length = loop.last.valueSize := hv₃.length_eq
    have hopening : top + 1 + limit.length + 1 + 1 = loop.opening := by
      rw [ht, hm₁, hm₂, hm₃]
      rfl
    rw [statementShapes] at hs
    have hinner : Shaped shape loop.opening (statementsShapes place loop.body) :=
      hs.middle (by simp [hn₁, hn₂, hn₃]; omega)
    have hplace : (shape loop.start).place = place :=
      congrArg Shape.place (hv₁.shape_start hs (by simp))
    have hstep : Discreet (loop.step.getD (.int 1 loop.pos)).names := by
      cases hsome : loop.step with
      | none => exact .nil
      | some step =>
        rw [hsome, namesOf] at hstep
        exact hstep
    simp only [Program.Holds, List.append_assoc, Along.append_iff] at hcode
    have hstepped : program.Holds loop.start stepped := hcode.1
    obtain ⟨_, hvalue, hinitial⟩ := hlaid.first
    rw [Eval.statement]
    refine (hless.value hv₁ hstepped hstep hm).bind fun stepValue _ m₁ hl₁ => ?_
    rw [hm₁] at hl₁
    refine .after (hl₁.standing.assignHidden hlaid.stepped.1 (hplace ▸ hruns.of_keeps hl₁.keeps)
      hl₁.stack) fun m₂ hset => ?_
    obtain ⟨hl₂, hvars⟩ := hset
    have hl₂ := (hl₁.mono Nowhere.elim).trans hl₂
    refine (hless.value hvalue hinitial hfirst hl₂.standing).bind fun firstValue _ m₃ hl₃ => ?_
    rw [hl₂.stack, hvalue.length_eq] at hl₃
    have hget := (hl₃.keeps.running.hidden loop.start "s" id).trans (Frame.get?_of_insert hvars "s")
    have hl₃ := hl₂.trans (hl₃.mono Nowhere.elim)
    refine (hl₃.standing.realizes_keep hlaid.counted.1 hcounter hplace (hruns.of_keeps hl₃.keeps) hget
      hl₃.stack).bind fun _ _ m₄ hkept => ?_
    obtain ⟨hl₄, hcounts⟩ := hkept
    have hl₄ := hl₃.trans hl₄
    refine (realizes_countLoop hc (fun less hl => ih less (Nat.lt_succ_of_lt hl)) hlaid hnames hplace
      hinner (hruns.of_keeps hl₄.keeps) hcounts hl₄.standing).mono ?_
    intro _ _ _ hf
    exact hl₄.follows (fun i hi => ⟨Nat.le_of_eq hi.symm, by omega⟩) (Nat.le_refl _) hf

theorem Correct.eachLoop_succ (loop : EachLoop) (hc : scene.Staged program shape)
    (ih : ∀ less < fuel + 1, Correct scene program shape less)
    (h : Lowers (.one none loop.node) loop.start code entries)
    (hcode : program.Holds loop.start code) (hnames : Discreet loop.node.names)
    (hs : Shaped shape loop.start (statementShapes place loop.node))
    (hruns : RunsAt program machine.execution place)
    (hm : Standing program shape loop.start store machine) :
    Realizes scene.setting (Eval.statement scene (fuel + 1) loop.node) store machine
      (Follows program shape place loop.start (loop.start + code.length) machine) := by
  have hless := ih fuel (Nat.lt_succ_self fuel)
  have hlaid := EachLoop.Laid.of_has ⟨none, code, entries, h, hcode⟩
  have hspan := loop.span
  rw [loop.length_eq h]
  have hall := hnames
  simp only [EachLoop.node, names, List.cons_append, Discreet.cons_iff, Discreet.append_iff] at hall
  obtain ⟨hi₁, hi₂, hi₃, hi₄, hi₅, hi₆, -⟩ := hlaid.opened
  unfold EachLoop.node at h hs ⊢
  cases h with
  | @eachLoop _ _ _ _ _ source _ _ _ _ _ _ _ _ _ _ _ _ hv =>
    have hn : (valueDepths 0 _).length = source.length := hv.length_depths 0
    have hm₁ : source.length = loop.items.valueSize := hv.length_eq
    rw [statementShapes] at hs
    have hinner : Shaped shape loop.opening (statementsShapes place loop.body) :=
      hs.middle (by simp [hn, hm₁, EachLoop.opening, EachLoop.given]; omega)
    have hplace : (shape loop.start).place = place :=
      congrArg Shape.place (hv.shape_start hs (by simp))
    simp only [Program.Holds, Along.append_iff] at hcode
    rw [Eval.statement]
    refine (hless.value hv hcode.1.1.1 hall.2.1 hm).bind fun array _ m₁ hl₁ => ?_
    rw [hm₁] at hl₁
    refine .after (hl₁.standing.assignHidden hi₁ (hplace ▸ hruns.of_keeps hl₁.keeps) hl₁.stack)
      fun m₂ hset₂ => ?_
    obtain ⟨hl₂, hvars₂⟩ := hset₂
    have hl₂ := (hl₁.mono Nowhere.elim).trans hl₂
    refine .after (hl₂.standing.pushValue hi₂) fun m₃ hl₃ => ?_
    rw [hl₂.stack] at hl₃
    have hget₃ := (hl₃.keeps.running.hidden loop.start "a" id).trans (Frame.get?_of_insert hvars₂ "a")
    have hl₃ := hl₂.trans (hl₃.mono Nowhere.elim)
    refine .after (hl₃.standing.assignHidden hi₃ (hplace ▸ hruns.of_keeps hl₃.keeps) hl₃.stack)
      fun m₄ hset₄ => ?_
    obtain ⟨hl₄, hvars₄⟩ := hset₄
    have hget₄ := (Frame.get?_of_insert hvars₄ "a").trans hget₃
    have hl₄ := hl₃.trans hl₄
    refine (hl₄.standing.realizes_touch hi₄ (lookup?_of_frame hget₄)).evaluated.bind
      fun found _ m₅ hfound => ?_
    obtain ⟨htouch, hl₅⟩ := hfound
    cases Eval.eq_of_touch htouch
    rw [hl₄.stack] at hl₅
    refine (hl₅.standing.realizes_items hi₅ hl₅.stack).bind fun values _ m₆ hitems => ?_
    obtain ⟨hvalues, hl₆⟩ := hitems
    obtain ⟨hget, hplain⟩ := Builtin.items_eq hvalues .arrayGet
    have hit₆ (role : String) := (hl₅.trans hl₆).keeps.running.hidden loop.start role id
    have hl₆ := hl₄.trans ((hl₅.trans hl₆).mono Nowhere.elim)
    split
    · next hshort =>
      refine .after (hl₆.standing.assignHidden hi₆ (hplace ▸ hruns.of_keeps hl₆.keeps) hl₆.stack)
        fun m₇ hset₇ => ?_
      obtain ⟨hl₇, hvars₇⟩ := hset₇
      have hit : Iterates loop.start array values.length 0 m₇.execution :=
        ⟨(Frame.get?_of_insert hvars₇ "a").trans ((hit₆ "a").trans hget₄),
          (Frame.get?_of_insert hvars₇ "i").trans ((hit₆ "i").trans (Frame.get?_of_insert hvars₄ "i")),
          Frame.get?_of_insert hvars₇ "c"⟩
      have hl₇ := hl₆.trans hl₇
      refine (realizes_eachLoop hc (fun less hl => ih less (Nat.lt_succ_of_lt hl)) hlaid hnames hplace
        hinner hget hshort hplain List.drop_zero (Nat.zero_le _) (hruns.of_keeps hl₇.keeps) hit
        hl₇.standing).mono fun _ _ _ hf => ?_
      exact hl₇.follows (fun i hi => ⟨Nat.le_of_eq hi.symm, by omega⟩) (Nat.le_refl _) hf
    · exact .undefined

end Loops

end DurableScript
