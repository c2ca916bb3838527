import ClassFile.Proofs.RevisedAttributes

/-!
# Attributes in any order

Unknown attributes and the order of attributes do not matter to the reader of class files (`Image.contents_revised`), as long
as all that it reads of an attribute lies in the attribute. It does not check that: it reads on from the start of a payload,
whatever its length is said to be (`Image.not_contents_revised`).
-/

namespace ClassFile

/-- The header stands behind the constants. -/
theorem Image.header_of_parse {bytes : Bytes} {image : Image} (h : Image.parse bytes = .ok image) {constants : PoolView}
    (hconstants : PoolView.parse bytes 8 = .ok constants) : image.header = constants.stop := by
  obtain ⟨_, -, h⟩ := exists_of_bind_eq_ok h
  obtain ⟨view, hview, h⟩ := exists_of_bind_eq_ok h
  obtain ⟨r, -, h⟩ := exists_of_bind_eq_ok h
  obtain rfl := Except.ok.inj h
  obtain rfl := Except.ok.inj (hview.symm.trans hconstants)
  rfl

/-- Unknown attributes and the order of attributes do not matter to the reader, as long as all that it reads of an attribute
lies in the attribute: every class file that is read is put together of parts, and if the parts can be read one by one, no
known name standing twice in a table, then every class file of revised parts is read as well, and the same is told of it. -/
theorem Image.contents_revised (omitted : Omissions) (interest : Interest) (hcopies : interest.copies = none) {bytes : Bytes}
    {image : Image} (hparse : Image.parse bytes = .ok image) {events : List Event}
    (hcontents : image.contents omitted interest = (.ok (), events)) :
    (∃ p : ClassParts, p.Fits ∧ p.encode = bytes ∧ p.front.size = image.header) ∧
      ∀ (p : ClassParts) (view : PoolView), p.Fits → p.encode = bytes → p.front.size = image.header → p.view = .ok view →
        p.Distinct view → (p.contents omitted interest).1 = .ok () → ∀ p' : ClassParts, p.Revised view p' → p'.Fits →
          ∃ image', Image.parse p'.encode = .ok image' ∧ image'.contents omitted interest = (.ok (), events) := by
  constructor
  · obtain ⟨p, hfits, hheader, hencode⟩ := ClassParts.exists_of_parse hparse
    exact ⟨p, hfits, hencode, hheader⟩
  · rintro p view hfits rfl hheader hview hd hread p' hrevised hfits'
    obtain ⟨view', hview', hgoes⟩ := ClassParts.contents_eq_ok.1 (Prod.ext hread rfl)
    obtain rfl := Except.ok.inj (hview.symm.trans hview')
    have hshown : p.ShownBy view := ClassParts.shownBy hview fun constants hconstants => by
      obtain ⟨hall, -⟩ := PoolView.parse_elsewhere p.hasAt_front hconstants
      rw [hheader]
      exact (Image.header_of_parse hparse hall).symm
    obtain ⟨image₀, hparse₀, hcontents₀⟩ := ClassParts.exists_contents hfits hshown hd hcopies hgoes
    obtain rfl := Except.ok.inj (hparse.symm.trans hparse₀)
    have hevents := (Prod.mk.inj (hcontents.symm.trans hcontents₀)).2
    rw [hevents]
    exact ClassParts.exists_contents hfits' (hrevised.shownBy hd hshown) (hrevised.distinct hd) hcopies
      (hrevised.mirrors omitted interest hd _ _ _ hgoes)

/-- What is no error has a value. -/
theorem exists_of_isOk {α : Type} {x : Except Error α} (h : x.isOk = true) : ∃ a, x = .ok a := by
  cases x with
  | error e => cases h
  | ok a => exact ⟨a, rfl⟩

/-- A class with a signature and a field with a value. The names in its pool are `A`, `Signature`,
`X`, `ConstantValue` and `I`. -/
def signedClass : ClassParts where
  front := #[0xCA, 0xFE, 0xBA, 0xBE, 0, 0, 0, 52, 0, 8, 1, 0, 1, 65, 7, 0, 1, 1, 0, 9, 83, 105, 103, 110, 97,
    116, 117, 114, 101, 1, 0, 1, 88, 1, 0, 13, 67, 111, 110, 115, 116, 97, 110, 116, 86, 97, 108, 117, 101,
    1, 0, 1, 73, 3, 0, 0, 0, 5]
  access := 0x21
  thisClass := 2
  superClass := 0
  interfaces := []
  fields := [⟨0, 1, 6, [⟨5, #[0, 7]⟩]⟩]
  methods := []
  attributes := [⟨3, #[0, 6]⟩]

/-- The same class with an unknown attribute in front of the value of the field, and one on either side of the signature. -/
def resignedClass : ClassParts :=
  { signedClass with
    fields := [⟨0, 1, 6, [⟨4, #[1, 2]⟩, ⟨5, #[0, 7]⟩]⟩]
    attributes := [⟨4, #[]⟩, ⟨3, #[0, 6]⟩, ⟨4, #[7]⟩] }

/-- The two classes that differ in the order of their attributes are read as the same events. -/
theorem Image.contents_revised_signedClass : ∃ image image' events, Image.parse signedClass.encode = .ok image ∧
    image.contents {} {} = (.ok (), events) ∧ Image.parse resignedClass.encode = .ok image' ∧
      image'.contents {} {} = (.ok (), events) ∧ events.length = 4 := by
  obtain ⟨view, hview⟩ : ∃ view, signedClass.view = .ok view := exists_of_isOk (by decide +kernel)
  obtain ⟨image, hparse⟩ : ∃ image, Image.parse signedClass.encode = .ok image := exists_of_isOk (by decide +kernel)
  have hheader : (Image.parse signedClass.encode).map (·.header) = .ok signedClass.front.size := by decide +kernel
  have hname : (signedClass.view >>= fun view => view.utf8 4) = .ok "X" := by decide +kernel
  have hcontents : (Image.parse signedClass.encode >>= fun image => (image.contents {} {}).1) = .ok () := by decide +kernel
  have hlength : (Image.parse signedClass.encode).map (fun image => (image.contents {} {}).2.length) = .ok 4 := by
    decide +kernel
  rw [hparse] at hheader hcontents hlength
  rw [hview] at hname
  change view.utf8 4 = .ok "X" at hname
  have hfits : signedClass.Fits :=
    ⟨by decide, ⟨by decide, fun m hm => List.mem_singleton.1 hm ▸ ⟨by decide, by decide⟩⟩,
      ⟨by decide, fun m hm => absurd hm List.not_mem_nil⟩, ⟨by decide, by decide⟩⟩
  have hfits' : resignedClass.Fits :=
    ⟨by decide, ⟨by decide, fun m hm => List.mem_singleton.1 hm ▸ ⟨by decide, by decide⟩⟩,
      ⟨by decide, fun m hm => absurd hm List.not_mem_nil⟩, ⟨by decide, by decide⟩⟩
  have hdistinct : signedClass.Distinct view :=
    ⟨List.pairwise_singleton _ _, fun m hm => List.mem_singleton.1 hm ▸ List.pairwise_singleton _ _, by simp [signedClass],
      by simp [signedClass]⟩
  have hrevised : signedClass.Revised view resignedClass := by
    have hfield : Attribute.Revised view Attribute.fieldNames [⟨5, #[0, 7]⟩] [⟨4, #[1, 2]⟩, ⟨5, #[0, 7]⟩] :=
      Attribute.revised_insert hname (by decide) [] _
    refine ⟨.cons ⟨hfield, rfl⟩ .nil, .nil, ⟨[⟨4, #[]⟩, ⟨4, #[7]⟩], fun a ha => ?_, by decide⟩, rfl⟩
    rcases List.mem_pair.1 ha with rfl | rfl <;> exact ⟨"X", hname, by decide⟩
  obtain ⟨image', hparse', hcontents'⟩ := (contents_revised {} {} rfl hparse (Prod.ext hcontents rfl)).2
    signedClass view hfits rfl (Except.ok.inj hheader).symm hview hdistinct (by decide +kernel) resignedClass hrevised hfits'
  exact ⟨image, image', _, hparse, Prod.ext hcontents rfl, hparse', hcontents', Except.ok.inj hlength⟩

/-- A class of which the signature is empty, so that its index is read from the attribute behind it. -/
def danglingClass : ClassParts :=
  { signedClass with fields := [], attributes := [⟨3, #[]⟩, ⟨4, #[]⟩] }

/-- The same class with its attributes in reverse order. -/
def reversedClass : ClassParts :=
  { danglingClass with attributes := [⟨4, #[]⟩, ⟨3, #[]⟩] }

/-- A class with a method that has two attributes, none of which is known. -/
def markedClass : ClassParts :=
  { signedClass with fields := [], methods := [⟨0, 1, 6, [⟨4, #[]⟩, ⟨4, #[0]⟩]⟩] }

/-- The same class with the attributes of its method in reverse order. -/
def remarkedClass : ClassParts :=
  { markedClass with methods := [⟨0, 1, 6, [⟨4, #[0]⟩, ⟨4, #[]⟩]⟩] }

/-- The bytes that are handed over with a method that is taken as it stands. -/
def Event.copied : Event → Option Bytes
  | .methodCopy _ attributes => some attributes
  | _ => none

open Event (copied) in
/-- The order of attributes does matter where something that is read of an attribute does not lie in it, and to one who
takes methods as they stand. -/
theorem Image.not_contents_revised :
    (∃ view image image', danglingClass.view = .ok view ∧ danglingClass.Distinct view ∧
      danglingClass.Revised view reversedClass ∧
      Image.parse danglingClass.encode = .ok image ∧ (image.contents {} {}).1 = .ok () ∧
      Image.parse reversedClass.encode = .ok image' ∧
      (image'.contents {} {}).1 = .error (.truncated 84 2)) ∧
    (∃ view image image', markedClass.view = .ok view ∧ markedClass.Distinct view ∧
      markedClass.Revised view remarkedClass ∧
      Image.parse markedClass.encode = .ok image ∧ (image.contents {} { copies := some 0 }).1 = .ok () ∧
      Image.parse remarkedClass.encode = .ok image' ∧
      (image'.contents {} { copies := some 0 }).2 ≠ (image.contents {} { copies := some 0 }).2) := by
  constructor
  · obtain ⟨view, hview⟩ : ∃ view, danglingClass.view = .ok view := exists_of_isOk (by decide +kernel)
    obtain ⟨image, hparse⟩ : ∃ image, Image.parse danglingClass.encode = .ok image := exists_of_isOk (by decide +kernel)
    obtain ⟨image', hparse'⟩ : ∃ image', Image.parse reversedClass.encode = .ok image' :=
      exists_of_isOk (by decide +kernel)
    have hname : (danglingClass.view >>= fun view => view.utf8 4) = .ok "X" := by decide +kernel
    have hcontents : (Image.parse danglingClass.encode >>= fun image => (image.contents {} {}).1) = .ok () := by
      decide +kernel
    have hcontents' : (Image.parse reversedClass.encode >>= fun image =>
        (image.contents {} {}).1) = .error (.truncated 84 2) := by decide +kernel
    rw [hview] at hname
    rw [hparse] at hcontents
    rw [hparse'] at hcontents'
    refine ⟨view, image, image', hview, ⟨?_, by simp [danglingClass], by simp [danglingClass, signedClass],
      by simp [danglingClass, signedClass]⟩, ⟨.nil, .nil, Attribute.revised_of_perm (.swap _ _ _), rfl⟩,
      hparse, hcontents, hparse', hcontents'⟩
    refine List.pairwise_pair.2 fun name hknown _ hlooked => ?_
    obtain rfl := Except.ok.inj (hname.symm.trans hlooked)
    exact absurd hknown (by decide)
  · obtain ⟨view, hview⟩ : ∃ view, markedClass.view = .ok view := exists_of_isOk (by decide +kernel)
    obtain ⟨image, hparse⟩ : ∃ image, Image.parse markedClass.encode = .ok image := exists_of_isOk (by decide +kernel)
    obtain ⟨image', hparse'⟩ : ∃ image', Image.parse remarkedClass.encode = .ok image' :=
      exists_of_isOk (by decide +kernel)
    have hname : (markedClass.view >>= fun view => view.utf8 4) = .ok "X" := by decide +kernel
    have hcontents : (Image.parse markedClass.encode >>= fun image => (image.contents {} { copies := some 0 }).1) =
      .ok () := by
      decide +kernel
    have hcopied : (Image.parse markedClass.encode).map
      (fun image => (image.contents {} { copies := some 0 }).2.map copied) =
        .ok [none, none, some #[0, 2, 0, 4, 0, 0, 0, 0, 0, 4, 0, 0, 0, 1, 0], none, none] := by decide +kernel
    have hcopied' : (Image.parse remarkedClass.encode).map (fun image =>
        (image.contents {} { copies := some 0 }).2.map copied) =
        .ok [none, none, some #[0, 2, 0, 4, 0, 0, 0, 1, 0, 0, 4, 0, 0, 0, 0], none, none] := by decide +kernel
    rw [hview] at hname
    rw [hparse] at hcontents hcopied
    rw [hparse'] at hcopied'
    refine ⟨view, image, image', hview,
      ⟨by simp [markedClass, signedClass, Attribute.Distinct], by simp [markedClass], ?_, ?_⟩,
      ⟨.nil, .cons ⟨_, .cons (.same _) (.cons (.same _) .nil), Attribute.revised_of_perm (.swap _ _ _), rfl⟩ .nil,
        Attribute.revised_of_perm (.refl _), rfl⟩, hparse, hcontents, hparse', fun hsame => ?_⟩
    · intro m hm
      obtain rfl := List.mem_singleton.1 hm
      refine List.pairwise_pair.2 fun name hknown hlooked _ => ?_
      obtain rfl := Except.ok.inj (hname.symm.trans hlooked)
      exact absurd hknown (by decide)
    · intro m hm a ha hlooked
      obtain rfl := List.mem_singleton.1 hm
      rcases List.mem_pair.1 ha with rfl | rfl <;> exact absurd (hname.symm.trans hlooked) (by decide)
    · have hboth := (Except.ok.inj hcopied').symm.trans ((congrArg (List.map copied) hsame).trans (Except.ok.inj hcopied))
      exact absurd hboth (by decide)

end ClassFile
