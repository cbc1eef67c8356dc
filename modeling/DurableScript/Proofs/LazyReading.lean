import DurableScript.Proofs.Mirroring
import DurableScript.Proofs.Rereading

/-!
One text read twice: once with its objects looked up at once, and once with references to be looked up
on first use. Whatever the first reading accepts the second one does, and the executions that they give
match.
-/

namespace DurableScript

def ObjectRef.Adding (R : ObjectRef Value → ObjectRef Value → Prop) (r q : ObjectRef Value) :
    ObjectRef Value → ObjectRef Value → Prop := fun a b => R a b ∨ a = r ∧ b = q

namespace Objects

variable {store : Objects} {ref : ObjectRef Value} {object : HostObject Value}

def Knows (store : Objects) : ObjectRef Value → Prop
  | .ready serial _ => serial < store.issued
  | .lazy cell _ => cell < store.cells.size

theorem Knows.of_le {after : Objects} (h : store.Knows ref) (hissued : store.issued ≤ after.issued)
    (hsize : store.cells.size ≤ after.cells.size) : after.Knows ref := by
  cases ref with
  | ready => exact Nat.lt_of_lt_of_le h hissued
  | lazy => exact Nat.lt_of_lt_of_le h hsize

def Answers (store : Objects) : ObjectRef Value → HostObject Value → Prop
  | .ready _ object, found => found = object
  | .lazy cell id, found => ∃ source content, store.cells[cell]? = some ⟨source, content⟩ ∧
      (content = some found ∨ content = none ∧
        ∃ resolvers, store.Asks resolvers source ∧ Resolver.answer? resolvers id = some found)

theorem exists_resolve (h : store.Answers ref object) : ∃ after,
    store.resolve ref = .ok (object, after) ∧ after.issued = store.issued ∧
      after.cells.size = store.cells.size ∧ ∀ {other found}, store.Answers other found →
        (∀ cell id id', ref = .lazy cell id → other = .lazy cell id' → id' = id) →
        after.Answers other found := by
  cases ref with
  | ready serial object =>
    cases h
    exact ⟨store, rfl, rfl, rfl, fun h _ => h⟩
  | lazy cell id =>
    obtain ⟨source, content, hcell, rfl | ⟨rfl, resolvers, hasks, hanswer⟩⟩ := h
    · refine ⟨store, ?_, rfl, rfl, fun h _ => h⟩
      simp [resolve, found?, hcell]
    · obtain ⟨sources, hlookUp, hkeeps⟩ := exists_lookUp hasks hanswer
      refine ⟨fill { store with sources := sources } cell object, ?_, rfl, Array.size_modify, ?_⟩
      · simp [resolve, found?, hcell, hlookUp]
      · intro other found hother hsame
        cases other with
        | ready => exact hother
        | lazy cell' id' =>
          obtain ⟨source', content', hcell', hfound⟩ := hother
          by_cases heq : cell = cell'
          · subst heq
            cases hsame cell id id' rfl rfl
            cases hcell.symm.trans hcell'
            have hobject : found = object := by
              obtain hfound | ⟨-, known, hknown, hfound⟩ := hfound
              · cases hfound
              · obtain ⟨_, hsource⟩ := hasks
                obtain ⟨_, hsource'⟩ := hknown
                cases hsource.symm.trans hsource'
                exact Option.some.inj (hfound.symm.trans hanswer)
            refine ⟨source, some object, ?_, .inl (by rw [hobject])⟩
            simp [fill, Array.getElem?_modify, hcell]
          · refine ⟨source', content', ?_, hfound.imp_right ?_⟩
            · simpa [fill, Array.getElem?_modify, heq] using hcell'
            · rintro ⟨hnone, known, hknown, hfound⟩
              exact ⟨hnone, known, hkeeps hknown, hfound⟩

/-- The host owns the object, and no other of its number. -/
def Sole (K : ObjectRef Value → Prop) (serial : Nat) (object : HostObject Value) : Prop :=
  K (.ready serial object) ∧ ∀ {other}, K (.ready serial other) → other = object

/-- The first store has looked up what the second looks up on first use. Related references stand for
matching objects. Where those of the second side lead to one object so do those of the first, and
where those of the first do, the others are references to the one object or wait for its id. What the
host owns already, it owns on both sides. -/
structure Twins (K : ObjectRef Value → Prop) (R : ObjectRef Value → ObjectRef Value → Prop)
    (store other : Objects) : Prop where
  owned : ∀ {ref}, K ref → R ref ref
  ready : ∀ {r q}, R r q → ∃ serial object, r = .ready serial object ∧ serial < store.issued
  known : ∀ {r q}, R r q → other.Knows q
  sole : ∀ {serial object found q}, R (.ready serial object) q → Sole K serial found → object = found
  handles : ∀ {r q r' q'}, R r q → R r' q' → q.SameHandle q' → r.SameHandle r'
  shared : ∀ {serial object found q q'}, R (.ready serial object) q → R (.ready serial found) q' →
    q.SameHandle q' ∨ object = found ∧ ∃ cell id, q = .lazy cell id ∨ q' = .lazy cell id
  ids : ∀ {r r' cell id id'}, R r (.lazy cell id) → R r' (.lazy cell id') → id' = id
  answers : ∀ {serial object q}, R (.ready serial object) q →
    ∃ found, other.Answers q found ∧ object.Matches R found
  kept : ∀ {serial object cell id}, R (.ready serial object) (.lazy cell id) →
    object.persisted = some (.reference id)

namespace Twins

variable {K : ObjectRef Value → Prop} {R : ObjectRef Value → ObjectRef Value → Prop}
  {store other : Objects} {r q : ObjectRef Value}

section

variable (h : Twins K R store other)
include h

theorem resolve (href : R r q) : ∃ object found after, store.resolve r = .ok (object, store) ∧
      other.resolve q = .ok (found, after) ∧ object.Matches R found ∧ Twins K R store after := by
  obtain ⟨serial, object, rfl, -⟩ := h.ready href
  obtain ⟨found, hfound, hmatches⟩ := h.answers href
  obtain ⟨after, hresolve, hissued, hsize, hanswers⟩ := exists_resolve hfound
  have hids {r' q'} (href' : R r' q') :
      ∀ cell id id', q = .lazy cell id → q' = .lazy cell id' → id' = id := by
    rintro cell id id' rfl rfl
    exact h.ids href href'
  refine ⟨object, found, after, rfl, hresolve, hmatches, ?_⟩
  refine { h with known := fun href => ?_, answers := fun href' => ?_ }
  · exact (h.known href).of_le hissued.ge hsize.ge
  · obtain ⟨found', hfound', hmatches'⟩ := h.answers href'
    exact ⟨found', hanswers hfound' (hids href'), hmatches'⟩

theorem persisted_eq (href : R r q) : other.persisted q = store.persisted r := by
  obtain ⟨serial, object, rfl, -⟩ := h.ready href
  obtain ⟨found, hfound, hmatches⟩ := h.answers href
  cases q with
  | ready =>
    cases hfound
    exact hmatches.persisted
  | lazy cell id =>
    obtain ⟨source, content, hcell, rfl | ⟨rfl, -⟩⟩ := hfound
    · simp [persisted, found?, hcell, hmatches.persisted]
    · simp [persisted, found?, hcell, h.kept href]

theorem label_eq (href : R r q) (hresolved : other.isResolved q = true) :
    other.label q = store.label r := by
  obtain ⟨serial, object, rfl, -⟩ := h.ready href
  obtain ⟨found, hfound, hmatches⟩ := h.answers href
  cases q with
  | ready =>
    cases hfound
    exact hmatches.label
  | lazy cell id =>
    obtain ⟨source, content, hcell, rfl | ⟨rfl, -⟩⟩ := hfound
    · simp [label, found?, hcell, hmatches.label]
    · simp [isResolved, content?, found?, hcell] at hresolved

theorem sameRef_eq {r' q' : ObjectRef Value} (href : R r q) (href' : R r' q')
    (hsettled : other.sameRef q q' = true → q.SameHandle q') :
    other.sameRef q q' = store.sameRef r r' := by
  have hpersisted := h.persisted_eq href
  have hpersisted' := h.persisted_eq href'
  have hhandles := h.handles href href'
  obtain ⟨serial, object, rfl, -⟩ := h.ready href
  obtain ⟨serial', found, rfl, -⟩ := h.ready href'
  rw [Bool.eq_iff_iff]
  refine ⟨fun hq => beq_iff_eq.2 (hhandles (hsettled hq)), fun hr => ?_⟩
  obtain rfl : serial = serial' := beq_iff_eq.1 hr
  obtain hsame | ⟨rfl, cell, id, rfl | rfl⟩ := h.shared href href'
  · cases q <;> cases q' <;> simp_all [ObjectRef.SameHandle, sameRef, sameCell]
  · simp_all [sameRef, sameId, persisted, h.kept href]
  · simp_all [sameRef, sameId, persisted, h.kept href']

theorem extend {store' other' : Objects} {serial : Nat} {object found : HostObject Value}
    (hissued : store.issued ≤ store'.issued) (hserial : serial < store'.issued)
    (hsole : ∀ {found}, Sole K serial found → object = found)
    (hshared : ∀ {found b}, R (.ready serial found) b →
      object = found ∧ ∃ cell id, q = .lazy cell id)
    (hsize : other.issued ≤ other'.issued ∧ other.cells.size ≤ other'.cells.size)
    (hanswers : ∀ ref found, other.Answers ref found → other'.Answers ref found)
    (hq : other'.Knows q) (hfresh : ∀ ref, other.Knows ref → ¬ ref.SameHandle q)
    (hfound : other'.Answers q found) (hmatches : object.Matches R found)
    (hkept : ∀ cell id, q = .lazy cell id → object.persisted = some (.reference id)) :
    Twins K (ObjectRef.Adding R (.ready serial object) q) store' other' := by
  refine ⟨fun hk => .inl (h.owned hk), ?_, ?_, ?_, ?_, ?_, ?_, ?_, ?_⟩
  · rintro a b (hab | ⟨rfl, rfl⟩)
    · obtain ⟨serial, object, rfl, hlt⟩ := h.ready hab
      exact ⟨serial, object, rfl, Nat.lt_of_lt_of_le hlt hissued⟩
    · exact ⟨serial, object, rfl, hserial⟩
  · rintro a b (hab | ⟨rfl, rfl⟩)
    · exact (h.known hab).of_le hsize.1 hsize.2
    · exact hq
  · rintro serial' object' found' b (hab | ⟨hnew, rfl⟩) hk
    · exact h.sole hab hk
    · cases hnew
      exact hsole hk
  · rintro a b a' b' (hab | ⟨rfl, rfl⟩) (hab' | ⟨rfl, rfl⟩) hsame
    · exact h.handles hab hab' hsame
    · exact absurd hsame (hfresh b (h.known hab))
    · exact absurd hsame.symm (hfresh b' (h.known hab'))
    · rfl
  · rintro serial' object' found' b b' (hab | ⟨hnew, rfl⟩) (hab' | ⟨hnew', rfl⟩)
    · exact h.shared hab hab'
    · cases hnew'
      obtain ⟨rfl, cell, id, hlazy⟩ := hshared hab
      exact .inr ⟨rfl, cell, id, .inr hlazy⟩
    · cases hnew
      obtain ⟨rfl, cell, id, hlazy⟩ := hshared hab'
      exact .inr ⟨rfl, cell, id, .inl hlazy⟩
    · exact .inl (ObjectRef.SameHandle.refl _)
  · rintro a a' cell id id' (ha | ⟨rfl, rfl⟩) (ha' | ⟨rfl, heq⟩)
    · exact h.ids ha ha'
    · exact absurd (heq ▸ rfl) (hfresh _ (h.known ha))
    · exact absurd rfl (hfresh _ (h.known ha'))
    · cases heq
      rfl
  · rintro serial' object' b (hab | ⟨hnew, rfl⟩)
    · obtain ⟨found, hfound, hmatches⟩ := h.answers hab
      exact ⟨found, hanswers b found hfound, hmatches.mono fun _ _ => .inl⟩
    · cases hnew
      exact ⟨found, hfound, hmatches.mono fun _ _ => .inl⟩
  · rintro serial' object' cell id (hab | ⟨hnew, heq⟩)
    · exact h.kept hab
    · cases hnew
      exact hkept cell id heq.symm

theorem not_issued {object : HostObject Value} : ¬ R (.ready store.issued object) q := by
  intro hnew
  obtain ⟨_, _, heq, hlt⟩ := h.ready hnew
  cases heq
  exact Nat.lt_irrefl _ hlt

theorem adopt {object found : HostObject Value} (hmatches : object.Matches R found) :
    Twins K (ObjectRef.Adding R (.ready store.issued object) (.ready other.issued found))
      (store.adopt object).2 (other.adopt found).2 := by
  refine h.extend (Nat.le_succ _) (Nat.lt_succ_self _) (fun hk => absurd (h.owned hk.1) h.not_issued)
    (fun hold => absurd hold h.not_issued) ⟨Nat.le_succ _, Nat.le_refl _⟩ (fun ref found h => ?_)
    (Nat.lt_succ_self _) (fun ref hknown => ?_) rfl hmatches nofun
  · cases ref <;> exact h
  · cases ref with
    | ready => exact Nat.ne_of_lt hknown
    | lazy => exact not_false

/-- A lookup that is done on the one side and put off on the other. The object was built for it, or
the host had it before. -/
theorem defer {store' : Objects} {resolvers : List Resolver} {source serial : Nat} {id : String}
    {object : HostObject Value}
    (hserial : serial = store.issued ∧ store'.issued = store.issued + 1 ∨
      Sole K serial object ∧ store'.issued = store.issued)
    (hasks : other.Asks resolvers source) (hanswer : Resolver.answer? resolvers id = some object)
    (hkept : object.persisted = some (.reference id)) (hself : object.Matches R object) :
    Twins K (ObjectRef.Adding R (.ready serial object) (.lazy other.cells.size id))
      store' (other.defer source id).2 := by
  have hsize : (other.defer source id).2.cells.size = other.cells.size + 1 := Array.size_push ..
  have hknows : (other.defer source id).2.Knows (.lazy other.cells.size id) :=
    Nat.lt_of_lt_of_eq (Nat.lt_succ_self _) hsize.symm
  have hfound : (other.defer source id).2.Answers (.lazy other.cells.size id) object :=
    ⟨source, none, by simp [Objects.defer], .inr ⟨rfl, resolvers, hasks, hanswer⟩⟩
  have hissued : store.issued ≤ store'.issued ∧ serial < store'.issued := by
    obtain ⟨rfl, hissued⟩ | ⟨hk, hissued⟩ := hserial
    · omega
    · obtain ⟨_, _, heq, hlt⟩ := h.ready (h.owned hk.1)
      cases heq
      omega
  have hsole {found} (hfound : Sole K serial found) : object = found := by
    obtain ⟨rfl, -⟩ | ⟨hk, -⟩ := hserial
    · exact absurd (h.owned hfound.1) h.not_issued
    · exact hfound.2 hk.1
  have hshared {found b} (hold : R (.ready serial found) b) : object = found := by
    obtain ⟨rfl, -⟩ | ⟨hk, -⟩ := hserial
    · exact absurd hold h.not_issued
    · exact (h.sole hold hk).symm
  refine h.extend hissued.1 hissued.2 hsole (fun hold => ⟨hshared hold, _, _, rfl⟩)
    ⟨Nat.le_refl _, by omega⟩ (fun ref found h => ?_) hknows (fun ref hknown => ?_) hfound hself ?_
  · cases ref with
    | ready => exact h
    | lazy cell id =>
      obtain ⟨source', content, hcell, hfound⟩ := h
      have hlt := (Array.getElem?_eq_some_iff.1 hcell).1
      refine ⟨source', content, ?_, hfound⟩
      simpa [Objects.defer, Array.getElem?_push_lt hlt, hlt] using hcell
  · cases ref with
    | ready => exact not_false
    | lazy => exact Nat.ne_of_lt hknown
  · rintro cell id' heq
    cases heq
    exact hkept

end

end Twins

/-- The references are to objects that the store has numbered, and so are those in their
properties. -/
def Owns (K : ObjectRef Value → Prop) (store : Objects) : Prop :=
  ∀ {ref}, K ref → ∃ serial object, ref = .ready serial object ∧ serial < store.issued ∧
    ∀ r ∈ Value.refsFields object.properties, K r

theorem Owns.twins {K : ObjectRef Value → Prop} {store : Objects} (h : store.Owns K) :
    Twins K (fun r q => K r ∧ q = r) store store := by
  refine ⟨fun hk => ⟨hk, rfl⟩, ?_, ?_, ?_, ?_, ?_, ?_, ?_, ?_⟩
  · rintro r q ⟨hk, rfl⟩
    obtain ⟨serial, object, rfl, hlt, -⟩ := h hk
    exact ⟨serial, object, rfl, hlt⟩
  · rintro r q ⟨hk, rfl⟩
    obtain ⟨serial, object, rfl, hlt, -⟩ := h hk
    exact hlt
  · rintro serial object found q ⟨hk, -⟩ hfound
    exact hfound.2 hk
  · rintro r q r' q' ⟨-, rfl⟩ ⟨-, rfl⟩ hsame
    exact hsame
  · rintro serial object found q q' ⟨-, rfl⟩ ⟨-, rfl⟩
    exact .inl rfl
  · rintro r r' cell id id' ⟨hk, rfl⟩ -
    obtain ⟨_, _, heq, -⟩ := h hk
    cases heq
  · rintro serial object q ⟨hk, rfl⟩
    obtain ⟨_, _, heq, -, hproperties⟩ := h hk
    cases heq
    exact ⟨object, rfl, rfl, rfl, Value.matchesFields_self _ fun r hr => ⟨hproperties r hr, rfl⟩, rfl⟩
  · rintro serial object cell id ⟨-, heq⟩
    cases heq

end Objects

namespace Sources

def atOnce (sources : Sources) : Sources := { sources with deferred := false }

def onUse (sources : Sources) : Sources := { sources with deferred := true }

/-- An object is kept under the id that it was found by. The host owns it already if it was not built
for the lookup, and owns all that is in its properties. -/
structure Faithful (K : ObjectRef Value → Prop) (sources : Sources) : Prop where
  kept : ∀ {id object}, Resolver.answer? sources.resolvers id = some object →
    object.persisted = some (.reference id)
  held : ∀ {id serial object}, Resolver.serial? sources.resolvers id = some serial →
    Resolver.answer? sources.resolvers id = some object → Objects.Sole K serial object
  resolved : ∀ {id object}, Resolver.answer? sources.resolvers id = some object →
    ∀ ref ∈ Value.refsFields object.properties, K ref
  decoded : ∀ {typeName decode payload object}, Table.find? typeName sources.blobs = some decode →
    decode payload = .ok object → ∀ ref ∈ Value.refsFields object.properties, K ref

end Sources

structure Objects.Readers (K : ObjectRef Value → Prop) (resolvers : List Resolver) (source : Nat)
    (R : ObjectRef Value → ObjectRef Value → Prop) (store other : Objects) : Prop
    extends Objects.Twins K R store other where
  asks : store.Asks resolvers source
  asks' : other.Asks resolvers source

namespace Restoring

open Objects

variable {α β : Type} {K : ObjectRef Value → Prop} {resolvers : List Resolver} {source : Nat}
  {R : ObjectRef Value → ObjectRef Value → Prop}
  {P : (ObjectRef Value → ObjectRef Value → Prop) → α → α → Prop}

/-- Whatever the first reading gives, the second one gives something related. -/
def Follows (K : ObjectRef Value → Prop) (resolvers : List Resolver) (source : Nat)
    (R : ObjectRef Value → ObjectRef Value → Prop) (x y : Restoring α)
    (P : (ObjectRef Value → ObjectRef Value → Prop) → α → α → Prop) : Prop :=
  ∀ store other a after, Readers K resolvers source R store other → x.Gives store a after →
    ∃ R' b after', (∀ r q, R r q → R' r q) ∧ y.Gives other b after' ∧
      Readers K resolvers source R' after after' ∧ P R' a b

theorem follows_pure {a b : α} (h : P R a b) :
    Follows K resolvers source R (pure a) (pure b) P := by
  intro store other c after hreaders hgives
  obtain ⟨rfl, rfl⟩ := gives_pure_iff.1 hgives
  exact ⟨R, b, other, fun _ _ => id, gives_pure_iff.2 ⟨rfl, rfl⟩, hreaders, h⟩

theorem Follows.bind {x y : Restoring α} {f g : α → Restoring β}
    {P : (ObjectRef Value → ObjectRef Value → Prop) → α → α → Prop}
    {Q : (ObjectRef Value → ObjectRef Value → Prop) → β → β → Prop}
    (h : Follows K resolvers source R x y P)
    (hfg : ∀ R' a b, (∀ r q, R r q → R' r q) → P R' a b →
      Follows K resolvers source R' (f a) (g b) Q) :
    Follows K resolvers source R (x >>= f) (y >>= g) Q := by
  intro store other c after hreaders hgives
  obtain ⟨a, between, hx, hf⟩ := gives_bind_iff.1 hgives
  obtain ⟨R', b, between', hR, hy, hreaders', hab⟩ := h _ _ _ _ hreaders hx
  obtain ⟨R'', d, after', hR', hg, hreaders'', hcd⟩ := hfg R' a b hR hab _ _ _ _ hreaders' hf
  exact ⟨R'', d, after', fun r q hrq => hR' r q (hR r q hrq),
    gives_bind_iff.2 ⟨b, between', hy, hg⟩, hreaders'', hcd⟩

theorem follows_ofExcept {x y : Except FormatError α}
    (h : ∀ a, x = .ok a → ∃ b, y = .ok b ∧ P R a b) :
    Follows K resolvers source R (ofExcept x) (ofExcept y) P := by
  intro store other a after hreaders hgives
  obtain ⟨hx, rfl⟩ := gives_ofExcept_iff.1 hgives
  obtain ⟨b, hy, hab⟩ := h a hx
  exact ⟨R, b, other, fun _ _ => id, gives_ofExcept_iff.2 ⟨hy, rfl⟩, hreaders, hab⟩

theorem follows_throw {e : FormatError} {y : Restoring α} :
    Follows K resolvers source R (throw e) y P := fun _ _ _ _ _ h => absurd h not_gives_throw

theorem follows_get {f g : Objects → Restoring α}
    (h : ∀ store other, Follows K resolvers source R (f store) (g other) P) :
    Follows K resolvers source R (get >>= f) (get >>= g) P := by
  intro store other a after hreaders hgives
  exact h store other store other a after hreaders hgives

theorem follows_adopt {object : HostObject Value}
    (h : ∀ ref ∈ Value.refsFields object.properties, K ref) :
    Follows K resolvers source R (adopt object) (adopt object) fun R => Value.Matches R := by
  intro store other value after hreaders hgives
  obtain ⟨rfl, rfl⟩ := gives_adopt_iff.1 hgives
  have hself : object.Matches R object :=
    ⟨rfl, rfl, Value.matchesFields_self _ fun ref href => hreaders.owned (h ref href), rfl⟩
  refine ⟨_, _, _, fun r q => .inl, gives_adopt_iff.2 ⟨rfl, rfl⟩,
    ⟨hreaders.toTwins.adopt hself, hreaders.asks, hreaders.asks'⟩, _, rfl, .inr ⟨rfl, rfl⟩⟩

theorem gives_reference_onUse (sources : Sources) (source : Nat) (id : String) (store : Objects) :
    (reference sources.onUse source id).Gives store (.object (.lazy store.cells.size id))
      (store.defer source id).2 := rfl

theorem follows_reference {sources : Sources} (h : sources.Faithful K) (source : Nat) (id : String) :
    Follows K sources.resolvers source R (reference sources.atOnce source id)
      (reference sources.onUse source id) fun R => Value.Matches R := by
  intro store other value after hreaders hgives
  obtain ⟨serial, object, hanswer, rfl, hasks, -, hserial⟩ :=
    found_of_gives_reference (show sources.atOnce.deferred = false from rfl) hreaders.asks hgives
  have hself : object.Matches R object :=
    ⟨rfl, rfl, Value.matchesFields_self _ fun ref href => hreaders.owned (h.resolved hanswer ref href),
      rfl⟩
  refine ⟨ObjectRef.Adding R (.ready serial object) (.lazy other.cells.size id), _, _,
    fun r q => .inl, gives_reference_onUse sources source id other, ⟨?_, hasks, hreaders.asks'⟩, _, rfl,
    .inr ⟨rfl, rfl⟩⟩
  refine hreaders.toTwins.defer ?_ hreaders.asks' hanswer (h.kept hanswer) hself
  obtain ⟨hheld, hissued⟩ | ⟨-, rfl, hissued⟩ := hserial
  · exact .inr ⟨h.held hheld hanswer, hissued⟩
  · exact .inl ⟨rfl, hissued⟩

theorem follows_blob {sources : Sources} (h : sources.Faithful K) (typeName payload : String) :
    Follows K resolvers source R (blob sources.atOnce typeName payload)
      (blob sources.onUse typeName payload) fun R => Value.Matches R := by
  unfold blob
  have hblobs : sources.onUse.blobs = sources.atOnce.blobs := rfl
  rw [hblobs]
  split
  · exact follows_throw
  · next decode hdecode =>
    split
    · exact follows_throw
    · next object hobject => exact follows_adopt (h.decoded hdecode hobject)

end Restoring

namespace Tagged

open Restoring

variable {K : ObjectRef Value → Prop} {sources : Sources} {source : Nat}

mutual

theorem follows_restore (h : sources.Faithful K) :
    ∀ (tagged : Tagged) (R : ObjectRef Value → ObjectRef Value → Prop),
      Follows K sources.resolvers source R (tagged.restore sources.atOnce source)
        (tagged.restore sources.onUse source) fun R => Value.Matches R
  | null, _ | bool _, _ | int _, _ | float _, _ | str _, _ => follows_pure rfl
  | list items, R => (follows_restoreItems h items R).bind fun _ _ _ _ hitems =>
    follows_pure ⟨_, rfl, Value.matchesItems_iff.2 hitems⟩
  | record fields, _ => (follows_restoreFields h fields .nil).bind fun _ _ _ _ hfields =>
    follows_pure ⟨_, rfl, Value.matchesFields_iff.2 hfields⟩
  | reference id, _ => follows_reference h source id
  | blob typeName payload, _ => follows_blob h typeName payload
  | fault _, _ => follows_throw

theorem follows_restoreItems (h : sources.Faithful K) :
    ∀ (items : List Tagged) (R : ObjectRef Value → ObjectRef Value → Prop),
      Follows K sources.resolvers source R (restoreItems sources.atOnce source items)
        (restoreItems sources.onUse source items) fun R => List.Forall₂ (Value.Matches R)
  | [], _ => follows_pure .nil
  | item :: rest, R => by
    refine (follows_restore h item R).bind fun R' value value' _ hvalue => ?_
    refine (follows_restoreItems h rest R').bind fun R'' values values' hR hvalues => ?_
    exact follows_pure (.cons (hvalue.mono hR) hvalues)

theorem follows_restoreFields (h : sources.Faithful K) :
    ∀ (fields : List (String × Tagged)) {R : ObjectRef Value → ObjectRef Value → Prop}
      {done done' : Table Value},
      List.Forall₂ (fun a b => a.1 = b.1 ∧ a.2.Matches R b.2) done done' →
      Follows K sources.resolvers source R (restoreFields sources.atOnce source done fields)
        (restoreFields sources.onUse source done' fields)
        fun R => List.Forall₂ fun a b => a.1 = b.1 ∧ a.2.Matches R b.2
  | [], _, _, _, hdone => follows_pure hdone
  | (name, field) :: rest, R, done, done', hdone => by
    refine (follows_restore h field R).bind fun R' value value' hR hvalue => ?_
    refine follows_restoreFields h rest (Table.forall₂_insert ?_ name hvalue)
    exact hdone.imp fun _ _ hentry => ⟨hentry.1, hentry.2.mono hR⟩

end

end Tagged

namespace Snapshot

namespace Operands

variable {α β : Type} {R : ObjectRef Value → ObjectRef Value → Prop}

def Blind (R : ObjectRef Value → ObjectRef Value → Prop) (x : Operands α) : Prop :=
  ∀ values others a rest, List.Forall₂ (Value.Matches R) values others →
    x.run values = .ok (a, rest) →
    ∃ rest', x.run others = .ok (a, rest') ∧ List.Forall₂ (Value.Matches R) rest rest'

theorem blind_pure (a : α) : Blind R (pure a) := by
  intro values others b rest hvalues h
  cases h
  exact ⟨others, rfl, hvalues⟩

theorem blind_throw (e : FormatError) : Blind R (throw e : Operands α) := by
  intro values others a rest _ h
  cases h

theorem Blind.bind {x : Operands α} {f : α → Operands β} (h : Blind R x)
    (hf : ∀ a, Blind R (f a)) : Blind R (x >>= f) := by
  intro values others b rest hvalues hrun
  rw [StateT.run_bind] at hrun
  cases hx : x.run values with
  | error e => rw [hx] at hrun; cases hrun
  | ok found =>
    obtain ⟨a, between⟩ := found
    rw [hx] at hrun
    obtain ⟨between', hx', hbetween⟩ := h _ _ _ _ hvalues hx
    rw [run_bind hx']
    exact hf a _ _ _ _ hbetween hrun

theorem blind_next (index : Nat) (kind : OperandKind) {f : Value → Operands α}
    (hf : ∀ value, value.IsScalar ∧ Blind R (f value) ∨ ∃ e, f value = throw e) :
    Blind R (next index kind >>= f) := by
  intro values others a rest hvalues hrun
  cases hvalues with
  | nil => cases hrun
  | @cons value value' _ _ hvalue hrest =>
    replace hrun : (f value).run _ = .ok (a, rest) := hrun
    rcases hf value with ⟨hscalar, hblind⟩ | ⟨e, hwrong⟩
    · cases hvalue.eq_of_objectFree hscalar.objectFree
      exact hblind _ _ _ _ hrest hrun
    · rw [hwrong] at hrun
      cases hrun

variable (index : Nat)

theorem blind_string : Blind R (string index) := by
  refine blind_next index .string fun value => ?_
  cases value with
  | str => exact .inl ⟨trivial, blind_pure _⟩
  | _ => exact .inr ⟨_, rfl⟩

theorem blind_bool : Blind R (bool index) := by
  refine blind_next index .bool fun value => ?_
  cases value with
  | bool => exact .inl ⟨trivial, blind_pure _⟩
  | _ => exact .inr ⟨_, rfl⟩

theorem blind_literal : Blind R (literal index) := by
  refine blind_next index .literal fun value => ?_
  cases value with
  | list | record | object => exact .inr ⟨_, rfl⟩
  | _ => exact .inl ⟨trivial, blind_pure _⟩

theorem blind_count : Blind R (count index) := by
  refine blind_next index .index fun value => ?_
  cases value with
  | int n =>
    refine .inl ⟨trivial, ?_⟩
    dsimp only
    split
    · exact blind_pure _
    · exact blind_throw _
  | _ => exact .inr ⟨_, rfl⟩

theorem blind_operator : Blind R (operator index) := by
  refine (blind_string index).bind fun symbol => ?_
  split
  · exact blind_pure _
  · exact blind_throw _

theorem blind_builtin : Blind R (builtin index) := by
  refine (blind_string index).bind fun name => ?_
  split
  · exact blind_pure _
  · exact blind_throw _

theorem blind_strings : Blind R (strings index) := by
  intro values others names rest hvalues hrun
  obtain ⟨found, hfound, hrest⟩ := Except.bind_eq_ok.1 hrun
  have hsame : others = values := by
    clear hrun hrest
    induction hvalues generalizing found with
    | nil => rfl
    | @cons value value' _ _ hvalue _ ih =>
      rw [List.mapM_cons] at hfound
      obtain ⟨name, hname, hfound⟩ := Except.bind_eq_ok.1 hfound
      obtain ⟨names, hnames, -⟩ := Except.bind_eq_ok.1 hfound
      cases value with
      | str s => rw [hvalue, ih names hnames]
      | _ => cases hname
  cases hsame
  cases hrest
  exact ⟨[], hrun, .nil⟩

end Operands

open Operands in
theorem blind_readOp {R : ObjectRef Value → ObjectRef Value → Prop} (index code : Nat) :
    Blind R (readOp index code) := by
  unfold readOp
  split
  · exact (blind_literal index).bind fun _ => blind_pure _
  · exact (blind_string index).bind fun _ => blind_pure _
  · exact (blind_operator index).bind fun _ => blind_pure _
  · exact (blind_string index).bind fun _ => blind_pure _
  · exact (blind_string index).bind fun _ => (blind_count index).bind fun _ =>
      (blind_count index).bind fun _ => blind_pure _
  · exact (blind_string index).bind fun _ => (blind_string index).bind fun _ =>
      (blind_count index).bind fun _ => (blind_count index).bind fun _ => blind_pure _
  · exact (blind_count index).bind fun _ => blind_pure _
  · exact blind_pure _
  · exact (blind_count index).bind fun _ => blind_pure _
  · exact (blind_builtin index).bind fun _ => (blind_count index).bind fun _ => blind_pure _
  · exact blind_pure _
  · exact (blind_bool index).bind fun _ => (blind_strings index).bind fun _ => blind_pure _
  · exact blind_pure _
  · exact (blind_count index).bind fun _ => blind_pure _
  · exact (blind_bool index).bind fun _ => blind_pure _
  · exact (blind_string index).bind fun _ => blind_pure _
  · exact blind_pure _
  · exact blind_throw _

open Restoring

variable {K : ObjectRef Value → Prop} {sources : Sources} {source : Nat}
  {R : ObjectRef Value → ObjectRef Value → Prop} (h : sources.Faithful K)

include h

theorem follows_restoreJson (json : Json) :
    Follows K sources.resolvers source R (restoreJson sources.atOnce source json)
      (restoreJson sources.onUse source json) fun R => Value.Matches R :=
  Tagged.follows_restore h _ R

theorem follows_restoreInstruction (index : Nat) (form : InstructionForm) :
    Follows K sources.resolvers source R (restoreInstruction sources.atOnce source index form)
      (restoreInstruction sources.onUse source index form) fun _ => Eq := by
  refine (follows_restoreJson h form.operands).bind fun R' value value' _ hvalue => ?_
  refine Follows.bind (P := fun R => List.Forall₂ (Value.Matches R))
    (follows_ofExcept fun values hvalues => ?_) fun R'' values values' _ hvalues => ?_
  · cases value with
    | list items =>
      cases hvalues
      obtain ⟨items', rfl, hitems⟩ := hvalue
      exact ⟨items', rfl, Value.matchesItems_iff.1 hitems⟩
    | null =>
      cases hvalues
      cases hvalue
      exact ⟨[], rfl, .nil⟩
    | _ => cases hvalues
  · refine Follows.bind (P := fun _ found found' => found'.1 = found.1)
      (follows_ofExcept fun found hfound => ?_) fun _ found found' _ hsame => ?_
    · obtain ⟨rest', hread, -⟩ := blind_readOp index form.code _ _ _ _ hvalues hfound
      exact ⟨_, hread, rfl⟩
    · exact follows_pure (by rw [hsame])

theorem follows_restoreCode (forms : List InstructionForm) (index : Nat) :
    Follows K sources.resolvers source R (restoreCode sources.atOnce source index forms)
      (restoreCode sources.onUse source index forms) fun _ => Eq := by
  induction forms generalizing index R with
  | nil => exact follows_pure rfl
  | cons form rest ih =>
    refine (follows_restoreInstruction h index form).bind ?_
    rintro R' instruction _ - rfl
    refine (ih (index + 1)).bind ?_
    rintro R'' others _ - rfl
    exact follows_pure rfl

theorem follows_restoreVariables (members : List (String × Json)) {done done' : Table Value}
    (hdone : List.Forall₂ (fun a b => a.1 = b.1 ∧ a.2.Matches R b.2) done done') :
    Follows K sources.resolvers source R (restoreVariables sources.atOnce source done members)
      (restoreVariables sources.onUse source done' members)
      fun R => List.Forall₂ fun a b => a.1 = b.1 ∧ a.2.Matches R b.2 := by
  induction members generalizing done done' R with
  | nil => exact follows_pure hdone
  | cons member rest ih =>
    refine (follows_restoreJson h member.2).bind fun R' value value' hR hvalue => ih ?_
    exact Table.forall₂_insert (hdone.imp fun _ _ hentry => ⟨hentry.1, hentry.2.mono hR⟩) _ hvalue

theorem follows_restoreTable (json : Json) :
    Follows K sources.resolvers source R (restoreTable sources.atOnce source json)
      (restoreTable sources.onUse source json)
      fun R => List.Forall₂ fun a b => a.1 = b.1 ∧ a.2.Matches R b.2 := by
  unfold restoreTable
  split
  · exact follows_restoreVariables h _ .nil
  · exact follows_pure .nil
  · exact follows_throw

theorem follows_restoreFrame (form : FrameForm) :
    Follows K sources.resolvers source R (restoreFrame sources.atOnce source form)
      (restoreFrame sources.onUse source form) fun R => Frame.Matches R := by
  intro store other frame after hreaders hgives
  obtain ⟨vars, items, result, _, _, hvars, hstack, hresult, rfl⟩ := gives_restoreFrame_iff.1 hgives
  obtain ⟨R₁, vars', _, hR₁, hvars', hreaders, hmatches₁⟩ :=
    follows_restoreTable h form.vars _ _ _ _ hreaders hvars
  obtain ⟨R₂, _, _, hR₂, hstack', hreaders, items', rfl, hmatches₂⟩ :=
    follows_restoreJson h form.stack _ _ _ _ hreaders hstack
  obtain ⟨R₃, result', after', hR₃, hresult', hreaders, hmatches₃⟩ :=
    follows_restoreJson h form.result _ _ _ _ hreaders hresult
  refine ⟨R₃, _, after', fun r q hrq => hR₃ r q (hR₂ r q (hR₁ r q hrq)),
    gives_restoreFrame_iff.2 ⟨vars', items', result', _, _, hvars', hstack', hresult', rfl⟩, hreaders,
    hmatches₁.imp fun _ _ hentry => ⟨hentry.1, (hentry.2.mono hR₂).mono hR₃⟩, ?_, hmatches₃, rfl⟩
  exact List.rel_reverse ((Value.matchesItems_iff.1 hmatches₂).imp fun _ _ hvalue => hvalue.mono hR₃)

theorem follows_restoreFrames (forms : List FrameForm) :
    Follows K sources.resolvers source R (restoreFrames sources.atOnce source forms)
      (restoreFrames sources.onUse source forms) fun R => List.Forall₂ (Frame.Matches R) := by
  induction forms generalizing R with
  | nil => exact follows_pure .nil
  | cons form rest ih =>
    refine (follows_restoreFrame h form).bind fun R' frame frame' _ hframe => ?_
    refine ih.bind fun R'' frames frames' hR hframes => ?_
    exact follows_pure (.cons (hframe.mono hR) hframes)

theorem follows_restoreIndex (json : Json) :
    Follows K sources.resolvers source R (restoreIndex sources.atOnce source json)
      (restoreIndex sources.onUse source json) fun _ => Eq := by
  refine (follows_restoreJson h json).bind fun R' value value' _ hvalue => ?_
  refine follows_get fun store other => ?_
  cases value with
  | int n =>
    cases hvalue
    dsimp only
    split
    · exact follows_pure rfl
    · exact follows_throw
  | _ => exact follows_throw

theorem follows_restoreExecution (envelope : Envelope) :
    Follows K sources.resolvers source R (restoreExecution sources.atOnce source envelope)
      (restoreExecution sources.onUse source envelope) fun R => Execution.Matches R := by
  intro store other execution after hreaders hgives
  obtain ⟨code, procedures, program, frames, index, mark, _, _, hversion, hcode, hprocedures,
    hprogram, hframes, hindex, hmark, hfound⟩ := gives_restoreExecution_iff.1 hgives
  obtain ⟨R₁, _, _, hR₁, hcode', hreaders, rfl⟩ :=
    follows_restoreCode h envelope.instructions 0 _ _ _ _ hreaders hcode
  obtain ⟨R₂, frames', _, hR₂, hframes', hreaders, hmatches⟩ :=
    follows_restoreFrames h envelope.frames _ _ _ _ hreaders hframes
  obtain ⟨R₃, _, after', hR₃, hindex', hreaders, rfl⟩ :=
    follows_restoreIndex h envelope.index _ _ _ _ hreaders hindex
  obtain ⟨execution', hfound', hmatches⟩ := Execution.matches_of_ofFrames? hfound
    (hmatches.imp fun _ _ hframe => hframe.mono hR₃)
  exact ⟨R₃, execution', after', fun r q hrq => hR₃ r q (hR₂ r q (hR₁ r q hrq)),
    gives_restoreExecution_iff.2 ⟨code, procedures, program, frames', index, mark, _, _, hversion,
      hcode', hprocedures, hprogram, hframes', hindex', hmark, hfound'⟩, hreaders, hmatches⟩

end Snapshot

theorem Execution.exists_ofSnapshot_onUse {K : ObjectRef Value → Prop} {sources : Sources}
    (h : sources.Faithful K) {store after : Objects} (howns : store.Owns K) {text : String}
    {execution : Execution} (hgives : (ofSnapshot sources.atOnce text).Gives store execution after) :
    ∃ R other after', (ofSnapshot sources.onUse text).Gives store other after' ∧
      Objects.Twins K R after after' ∧ execution.Matches R other := by
  obtain ⟨envelope, henvelope, hgives⟩ := gives_ofSnapshot_iff.1 hgives
  have hasks := Objects.asks_addSource store sources.resolvers
  have howns' : (store.addSource sources.resolvers).2.Owns K := howns
  obtain ⟨R, other, after', -, hgives', hreaders, hmatches⟩ :=
    Snapshot.follows_restoreExecution h envelope _ _ _ _ ⟨howns'.twins, hasks, hasks⟩ hgives
  exact ⟨R, other, after', gives_ofSnapshot_iff.2 ⟨envelope, henvelope, hgives'⟩,
    hreaders.toTwins, hmatches⟩

end DurableScript
