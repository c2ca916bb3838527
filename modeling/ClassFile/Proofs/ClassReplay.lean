import ClassFile.Proofs.ClassDrafting

/-!
# Classes that are told again

What a class tells of itself, told to a writer that has the constants of the class in its pool, gives the class again: no
step takes a constant that is not there, and each puts back the part of the class that it came from
(`ClassNames.Named.play_story`).
-/

namespace ClassFile

open ConstantPool

section Parts

variable (ctx : Context) (draft : ClassDraft) (copies : Array Bool) {c : ClassDraft} {names : ClassNames}

/-- The constants that a writer takes leave it as it is if its pool knows them. -/
theorem Writer.intern_known {α : Type} {w : Writer} {step : Interning α} {a : α} (h : w.context.pool.Knows step a) :
    w.intern step = (a, w) := by
  obtain ⟨ctx, draft, member, notes, copies⟩ := w
  exact congrArg (fun r : α × Context => (r.1, (⟨r.2, draft, member, notes, copies⟩ : Writer))) (Context.intern_known h)

theorem Writer.play_cons (w : Writer) (e : Event) (rest : List Event) : w.play (e :: rest) = (w.step e).play rest :=
  rfl

/-! ### The header -/

/-- The header of a class. -/
def ClassDraft.head (c : ClassDraft) : ClassDraft where
  access := c.access
  thisClass := c.thisClass
  superClass := c.superClass
  interfaces := c.interfaces
  signature := c.signature

variable {ctx} in
/-- Where all its names are known, the header takes no new constant. -/
theorem ClassNames.Named.headerParts (h : names.Named ctx.pool c) :
    ctx.pool.Knows (headerParts names.name names.signature names.superName names.interfaces)
      (c.thisClass, c.superClass, c.interfaces, c.signature) := by
  obtain ⟨i, hthis, hname⟩ := h.thisClass
  unfold ClassFile.headerParts
  rw [hthis]
  exact hname.bind (h.superClass.bind (h.interfaces.bind
    (h.signature.map fun signature => (some i, c.superClass, c.interfaces, signature))))

variable {ctx} in
/-- Told of the header, a writer whose pool knows all names starts the class and adds no constant. -/
theorem ClassNames.Named.play_header (h : names.Named ctx.pool c) (version : Version) : ∃ hierarchy,
    Writer.step ⟨ctx, {}, none, none, copies⟩
      (.header version c.access names.name names.signature names.superName names.interfaces) =
      ⟨{ ctx with version, className := names.name, hierarchy }, c.head, none, none, copies⟩ := by
  have hknown := Writer.intern_known (w := ⟨ctx, {}, none, none, copies⟩) h.headerParts
  have hheader := Writer.header_eq ⟨ctx, {}, none, none, copies⟩ version c.access names.name names.signature names.superName
    names.interfaces
  rw [hknown] at hheader
  exact ⟨_, hheader⟩

/-! ### What is around the class -/

/-- The source file and the debug information that goes with it. -/
theorem Writer.play_source {file : Option String} {i : Option PoolIndex} (hfile : ctx.pool.Knows (file.mapM utf8) i)
    (debug : Option String) (hdraft : draft.sourceFile = none ∧ draft.sourceDebug = none) :
    Writer.play ⟨ctx, draft, none, none, copies⟩ (if file.isSome || debug.isSome then [.source file debug] else []) =
      ⟨ctx, { draft with sourceFile := i, sourceDebug := debug.map ModifiedUtf8.encode }, none, none, copies⟩ := by
  split
  · exact congrArg (fun r : Option PoolIndex × Writer =>
        { r.2 with draft := { r.2.draft with sourceFile := r.1, sourceDebug := debug.map ModifiedUtf8.encode } })
      (Writer.intern_known (w := ⟨ctx, draft, none, none, copies⟩) hfile)
  · rename_i hnone
    obtain ⟨rfl, rfl⟩ : file = none ∧ debug = none := by
      cases file <;> cases debug <;> simp_all
    obtain rfl := hfile.unique (knows_pure none)
    obtain ⟨hf, hd⟩ := hdraft
    rw [Option.map_none, ← hf, ← hd]
    rfl

/-- An enclosing class that is told is the one that was named. -/
theorem enclosingNames_map (e : String × Option (String × String)) :
    enclosingNames e.1 (e.2.map (·.1)) (e.2.map (·.2)) = e := by
  obtain ⟨owner, method⟩ := e
  cases method <;> rfl

/-- What there may be is known if it is known where it is there. -/
theorem ConstantPool.Knows.of_some {α β : Type} {pool : ConstantPool} {f : α → Interning β} {x : α} {found : Option β}
    (h : pool.Knows ((some x).mapM f) found) : ∃ y, found = some y ∧ pool.Knows (f x) y := by
  change (some (f x pool).1, (f x pool).2) = _ at h
  cases hx : f x pool with
  | mk y later =>
    rw [hx] at h
    obtain ⟨rfl, rfl⟩ := Prod.mk.inj h
    exact ⟨y, rfl, hx⟩

/-- The enclosing class, if there is one. -/
theorem Writer.play_enclosing {enclosing : Option (String × Option (String × String))}
    {found : Option (PoolIndex × Option PoolIndex)}
    (h : ctx.pool.Knows (enclosing.mapM enclosure) found) (hdraft : draft.enclosing = none) :
    Writer.play ⟨ctx, draft, none, none, copies⟩
        (enclosing.map fun e => Event.outerClass e.1 (e.2.map (·.1)) (e.2.map (·.2))).toList =
      ⟨ctx, { draft with enclosing := found }, none, none, copies⟩ := by
  cases enclosing with
  | none =>
    obtain rfl := h.unique (knows_pure none)
    rw [← hdraft]
    rfl
  | some e =>
    obtain ⟨r, rfl, hr⟩ := h.of_some
    change Writer.outerClass ⟨ctx, draft, none, none, copies⟩ e.1 (e.2.map (·.1)) (e.2.map (·.2)) = _
    have hknown := Writer.intern_known (w := ⟨ctx, draft, none, none, copies⟩) hr
    rw [Writer.outerClass_eq, enclosingNames_map, hknown]

/-- The class at the head of the nest, if there is one. -/
theorem Writer.play_nestHost {host : Option String} {found : Option PoolIndex} (h : ctx.pool.Knows (host.mapM type) found)
    (hdraft : draft.nestHost = none) :
    Writer.play ⟨ctx, draft, none, none, copies⟩ (host.map Event.nestHost).toList =
      ⟨ctx, { draft with nestHost := found }, none, none, copies⟩ := by
  cases host with
  | none =>
    obtain rfl := h.unique (knows_pure none)
    rw [← hdraft]
    rfl
  | some name =>
    obtain ⟨i, rfl, hi⟩ := h.of_some
    exact congrArg (fun r : PoolIndex × Writer => { r.2 with draft := { r.2.draft with nestHost := some r.1 } })
      (Writer.intern_known (w := ⟨ctx, draft, none, none, copies⟩) hi)

/-- The members of the nest. -/
theorem Writer.play_nestMembers {members : List String} {is : List PoolIndex}
    (h : List.Forall₂ (fun name i => ctx.pool.Knows (type name) i) members is) (before : Array PoolIndex) :
    Writer.play ⟨ctx, { draft with nestMembers := before }, none, none, copies⟩ (members.map Event.nestMember) =
      ⟨ctx, { draft with nestMembers := before ++ is.toArray }, none, none, copies⟩ := by
  induction h generalizing before with
  | nil => simp [Writer.play]
  | @cons name i members is hi _ ih =>
    have hstep : Writer.step ⟨ctx, { draft with nestMembers := before }, none, none, copies⟩ (.nestMember name) =
        ⟨ctx, { draft with nestMembers := before.push i }, none, none, copies⟩ :=
      congrArg (fun r : PoolIndex × Writer =>
        { r.2 with draft := { r.2.draft with nestMembers := r.2.draft.nestMembers.push r.1 } })
        (Writer.intern_known (w := ⟨ctx, { draft with nestMembers := before }, none, none, copies⟩) hi)
    rw [List.map_cons, Writer.play_cons, hstep, ih]
    simp

variable {ctx} in
/-- Where all its names are known, an inner class takes no new constant. -/
theorem InnerNames.Named.innerParts {e : InnerNames} {entry : InnerClass} (h : e.Named ctx.pool entry) :
    ctx.pool.Knows (innerParts entry.inner e.outer e.inner e.access) entry := by
  obtain ⟨-, houter, hname, haccess, -⟩ := h
  unfold ClassFile.innerParts
  rw [← haccess]
  exact houter.bind (hname.map fun name => { entry with name })

/-- The inner classes, of which no two have the same name. -/
theorem Writer.play_innerClasses {inner : List InnerNames} {entries : List InnerClass}
    (h : List.Forall₂ (InnerNames.Named ctx.pool) inner entries) (before : Array InnerClass)
    (hdistinct : ((before.toList ++ entries).map InnerClass.inner).Nodup) :
    Writer.play ⟨ctx, { draft with innerClasses := before }, none, none, copies⟩ (inner.map InnerNames.event) =
      ⟨ctx, { draft with innerClasses := before ++ entries.toArray }, none, none, copies⟩ := by
  induction h generalizing before with
  | nil => simp [Writer.play]
  | @cons e entry inner entries he _ ih =>
    have hnew : ¬before.any (·.inner == entry.inner) := by
      intro hany
      obtain ⟨known, hknown, heq⟩ := Array.any_eq_true'.1 hany
      rw [List.map_append, List.nodup_append] at hdistinct
      exact hdistinct.2.2 _ (List.mem_map_of_mem (Array.mem_toList_iff.2 hknown)) _ List.mem_cons_self (beq_iff_eq.1 heq)
    have hstep : Writer.step ⟨ctx, { draft with innerClasses := before }, none, none, copies⟩ e.event =
        ⟨ctx, { draft with innerClasses := before.push entry }, none, none, copies⟩ := by
      change Writer.innerClass ⟨ctx, { draft with innerClasses := before }, none, none, copies⟩ e.name
        e.outer e.inner e.access = _
      have hknown := Writer.intern_known (w := ⟨ctx, { draft with innerClasses := before }, none, none, copies⟩) he.inner
      have hparts := Writer.intern_known (w := ⟨ctx, { draft with innerClasses := before }, none, none, copies⟩)
        he.innerParts
      rw [Writer.innerClass_eq, hknown]
      dsimp only
      rw [if_neg hnew, hparts]
    rw [List.map_cons, Writer.play_cons, hstep, ih _ (by simpa using hdistinct)]
    simp

/-! ### Members -/

/-- The fields. -/
theorem Writer.play_fields {fields : List Bytes} {events : List (List Event)}
    (h : List.Forall₂ (WrittenField ctx.pool ctx.version.major) fields events) (before : Array Bytes) :
    Writer.play ⟨ctx, { draft with fields := before }, none, none, copies⟩ events.flatten =
      ⟨ctx, { draft with fields := before ++ fields.toArray }, none, none, copies⟩ := by
  induction h generalizing before with
  | nil => simp [Writer.play]
  | @cons bytes es fields events hfield _ ih =>
    rw [List.flatten_cons, Writer.play_append, hfield.play, ih]
    simp

/-- The methods, which are taken as they stand. -/
theorem Writer.play_methods {source : SourceId} (hsource : ctx.source = some source) {methods : List Bytes}
    {events : List (List Event)}
    (h : List.Forall₂ (WrittenMethod ctx.pool ctx.version.major source) methods events) (before : Array Bytes) :
    ∃ copies', Writer.play ⟨ctx, { draft with methods := before }, none, none, copies⟩ events.flatten =
      ⟨ctx, { draft with methods := before ++ methods.toArray }, none, none, copies'⟩ := by
  induction h generalizing before copies with
  | nil => exact ⟨copies, by simp [Writer.play]⟩
  | @cons bytes es methods events hmethod _ ih =>
    rw [List.flatten_cons, Writer.play_append, hmethod.play hsource]
    obtain ⟨copies', hrest⟩ := ih (copies.push true) (before.push bytes)
    refine ⟨copies', hrest.trans ?_⟩
    simp

end Parts

/-! ### The whole class -/

/-- A class with all that it says but its annotations, its inner classes and its members. -/
def ClassDraft.outline (c : ClassDraft) : ClassDraft :=
  { c.head with
    sourceFile := c.sourceFile, sourceDebug := c.sourceDebug, enclosing := c.enclosing
    nestHost := c.nestHost, nestMembers := c.nestMembers }

/-- Told of the attributes of a class, a writer whose pool knows all names puts them into the draft. -/
theorem ClassNames.Named.play_events {ctx : Context} {c : ClassDraft} {names : ClassNames} (h : names.Named ctx.pool c)
    (copies : Array Bool) :
    Writer.play ⟨ctx, c.head, none, none, copies⟩ names.events = ⟨ctx, c.outline, none, none, copies⟩ := by
  have hevents : names.events = (if names.file.isSome || names.debug.isSome then [.source names.file names.debug] else []) ++
      (names.enclosing.map fun e => Event.outerClass e.1 (e.2.map (·.1)) (e.2.map (·.2))).toList ++
      (names.nestHost.map Event.nestHost).toList ++ names.nestMembers.map Event.nestMember := rfl
  have hsource := Writer.play_source ctx c.head copies h.sourceFile names.debug ⟨rfl, rfl⟩
  rw [← h.sourceDebug] at hsource
  have henclosing : Writer.play ⟨ctx, { c.head with sourceFile := c.sourceFile, sourceDebug := c.sourceDebug },
    none, none, copies⟩ _ =
      ⟨ctx, { c.head with sourceFile := c.sourceFile, sourceDebug := c.sourceDebug, enclosing := c.enclosing },
      none, none, copies⟩ :=
    Writer.play_enclosing ctx _ copies h.enclosing rfl
  have hhost : Writer.play ⟨ctx, { c.head with
      sourceFile := c.sourceFile, sourceDebug := c.sourceDebug, enclosing := c.enclosing }, none, none, copies⟩ _ =
      ⟨ctx, { c.head with
        sourceFile := c.sourceFile, sourceDebug := c.sourceDebug, enclosing := c.enclosing, nestHost := c.nestHost },
        none, none, copies⟩ :=
    Writer.play_nestHost ctx _ copies h.nestHost rfl
  have hmembers : Writer.play ⟨ctx, { c.head with
      sourceFile := c.sourceFile, sourceDebug := c.sourceDebug, enclosing := c.enclosing, nestHost := c.nestHost },
      none, none, copies⟩ _ =
      ⟨ctx, { c.outline with nestMembers := #[] ++ c.nestMembers }, none, none, copies⟩ :=
    Writer.play_nestMembers ctx c.outline copies h.nestMembers #[]
  rw [hevents, Writer.play_append, Writer.play_append, Writer.play_append, hsource, henclosing, hhost,
    hmembers, Array.empty_append]
  rfl

/-- What a class tells, told to a writer with its constants, gives the class. -/
theorem ClassNames.Named.play_story (ctx : Context) {c : ClassDraft} {names : ClassNames} {source : SourceId}
    (h : names.Named ctx.pool c) (hsource : ctx.source = some source) {annotations : List Event}
    (hannotations : c.annotations.Stands ctx.pool annotations)
    (hdistinct : (c.innerClasses.toList.map InnerClass.inner).Nodup) (version : Version) {fields methods : List (List Event)}
    (hfields : List.Forall₂ (WrittenField ctx.pool version.major) c.fields.toList fields)
    (hmethods : List.Forall₂ (WrittenMethod ctx.pool version.major source) c.methods.toList methods) :
    ∃ className hierarchy copies,
      Writer.play ⟨ctx, {}, none, none, #[]⟩ (names.story version c.access annotations fields.flatten methods.flatten) =
        ⟨{ ctx with version, className, hierarchy }, c, none, none, copies⟩ := by
  obtain ⟨hierarchy, hheader⟩ := h.play_header #[] version
  generalize hctx : ({ ctx with version, className := names.name, hierarchy } : Context) = ctx' at hheader
  have hpool : ctx.pool = ctx'.pool := by rw [← hctx]
  have hmajor : version.major = ctx'.version.major := by rw [← hctx]
  have hsource' : ctx'.source = some source := by rw [← hctx]; exact hsource
  rw [hpool] at h hannotations hfields hmethods
  rw [hmajor] at hfields hmethods
  have hnotes : Writer.play ⟨ctx', c.outline, none, none, #[]⟩ annotations =
      ⟨ctx', { c.outline with annotations := .grow {} c.annotations.count.toNat c.annotations.bytes }, none, none, #[]⟩ :=
    Annotations.play (fun annotations => { c.outline with annotations }) (fun _ => none) #[] hannotations (fun _ _ => rfl) {}
  rw [AnnotationList.grow_empty] at hnotes
  have hinner : Writer.play ⟨ctx', { c.outline with annotations := c.annotations }, none, none, #[]⟩ _ =
      ⟨ctx', { c.outline with annotations := c.annotations, innerClasses := #[] ++ c.innerClasses }, none, none, #[]⟩ :=
    Writer.play_innerClasses ctx' { c.outline with annotations := c.annotations } #[] h.innerClasses #[] hdistinct
  have hfieldsPlay : Writer.play ⟨ctx', { c.outline with annotations := c.annotations, innerClasses := c.innerClasses },
    none, none, #[]⟩ _ = ⟨ctx', { c.outline with
        annotations := c.annotations, innerClasses := c.innerClasses, fields := #[] ++ c.fields }, none, none, #[]⟩ :=
    Writer.play_fields ctx' { c.outline with annotations := c.annotations, innerClasses := c.innerClasses } #[] hfields #[]
  obtain ⟨copies, hmethodsPlay⟩ : ∃ copies, Writer.play ⟨ctx', { c.outline with
      annotations := c.annotations, innerClasses := c.innerClasses, fields := c.fields }, none, none, #[]⟩ _ =
      ⟨ctx', { c.outline with
        annotations := c.annotations, innerClasses := c.innerClasses, fields := c.fields, methods := #[] ++ c.methods },
        none, none, copies⟩ :=
    Writer.play_methods ctx' { c.outline with
      annotations := c.annotations, innerClasses := c.innerClasses, fields := c.fields } #[] hsource' hmethods #[]
  refine ⟨names.name, hierarchy, copies, ?_⟩
  rw [Array.empty_append] at hinner hfieldsPlay hmethodsPlay
  rw [hctx, ClassNames.story, Writer.play_cons, hheader]
  rw [Writer.play_append, Writer.play_append, Writer.play_append, Writer.play_append, Writer.play_append,
    h.play_events, hnotes, hinner, hfieldsPlay, hmethodsPlay]
  rfl

end ClassFile
