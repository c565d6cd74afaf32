import SheetFormula.Proofs.JsonText

/-!
# Values that are read can be written

Whatever `Json.parse?` reads, from whatever text, has strings of valid UTF-8 and numbers that are
numbers.  Both passes of the reader keep this: the scanner of the tokens it has read, and the
builder of the values that it has put together and of those that are still open.
-/

namespace SheetFormula.Json

/-- What holds of a state and is kept by every step holds at the end of a run. -/
theorem of_foldlM {σ α : Type} {step : σ → α → Option σ} {P : σ → Prop} {Q : α → Prop}
    (hstep : ∀ {s s' : σ} {a : α}, P s → Q a → step s a = some s' → P s') {as : List α} {s s' : σ}
    (has : ∀ a ∈ as, Q a) (hs : P s) (h : as.foldlM step s = some s') : P s' := by
  induction as generalizing s with
  | nil =>
    obtain rfl := Option.some.inj h
    exact hs
  | cons a as ih =>
    obtain ⟨ha, has⟩ := List.forall_mem_cons.1 has
    obtain ⟨mid, hmid, hrest⟩ := Option.bind_eq_some_iff.1 h
    exact ih has (hstep hs ha hmid) hrest

theorem allWritable_iff {items : List Json} : AllWritable items ↔ ∀ j ∈ items, j.IsWritable := by
  induction items with
  | nil => simp [AllWritable]
  | cons item rest ih => simp [AllWritable, ih]

theorem membersWritable_iff {members : List (Text × Json)} :
    MembersWritable members ↔ ∀ m ∈ members, m.1.isValid = true ∧ m.2.IsWritable := by
  match members with
  | [] => simp [MembersWritable]
  | (name, value) :: rest => simp [MembersWritable, @membersWritable_iff rest, and_assoc]

/-! ### Tokens -/

/-- A value and a string that can be written; punctuation always can. -/
def Token.IsWritable : Token → Prop
  | .value v => v.IsWritable
  | .string text => text.isValid = true
  | _ => True

/-- All that was read can be written, and a word has no character that would end it. -/
structure Scan.IsWritable (s : Scan) : Prop where
  tokens : ∀ t ∈ s.tokens, t.IsWritable
  word : ∀ chars, s.mode = .word chars → ∀ c ∈ chars, endsWord c = false

variable {s s' : Scan} {ts : List Token} {c : Char}

/-- Where no word is being read, the tokens are all that counts. -/
theorem Scan.IsWritable.of_tokens {mode : Mode} (hts : ∀ t ∈ ts, t.IsWritable)
    (hmode : ∀ chars, mode ≠ .word chars) : Scan.IsWritable ⟨ts, mode⟩ :=
  ⟨hts, fun chars h => absurd h (hmode chars)⟩

theorem isWritable_of_word? {cs : List Char} {v : Json} (hcs : ∀ c ∈ cs, endsWord c = false)
    (h : word? cs = some v) : v.IsWritable := by
  unfold word? at h
  split_ifs at h with hnull htrue hfalse hnumber <;> cases h
  · trivial
  · trivial
  · trivial
  · rw [IsWritable]
    exact ⟨hnumber, hcs⟩

theorem scanBetween_isWritable (hts : ∀ t ∈ ts, t.IsWritable) (h : scanBetween ts c = some s') :
    s'.IsWritable := by
  have hpush {t : Token} (ht : t.IsWritable) : Scan.IsWritable ⟨t :: ts, .between⟩ :=
    .of_tokens (List.forall_mem_cons.2 ⟨ht, hts⟩) (by simp)
  unfold scanBetween at h
  split_ifs at h with hspace
  · cases h
    exact .of_tokens hts (by simp)
  · split at h <;> cases h
    · exact hpush trivial
    · exact hpush trivial
    · exact hpush trivial
    · exact hpush trivial
    · exact hpush trivial
    · exact hpush trivial
    · exact .of_tokens hts (by simp)
    · refine ⟨hts, fun chars hchars => ?_⟩
      cases hchars
      simp_all [endsWord]

theorem scanChar_isWritable (hs : s.IsWritable) (h : scanChar s c = some s') : s'.IsWritable := by
  obtain ⟨ts, mode⟩ := s
  have hts : ∀ t ∈ ts, t.IsWritable := hs.tokens
  -- A word becomes a token at the character behind it, which may start another token.
  cases mode with
  | between => exact scanBetween_isWritable hts h
  | word chars =>
    have hchars : ∀ c ∈ chars, endsWord c = false := hs.word chars rfl
    simp only [scanChar] at h
    split_ifs at h with hend
    · obtain ⟨v, hv, h⟩ := Option.bind_eq_some_iff.1 h
      have hwritable : (Token.value v).IsWritable :=
        isWritable_of_word? (fun c hc => hchars c (List.mem_reverse.1 hc)) hv
      exact scanBetween_isWritable (List.forall_mem_cons.2 ⟨hwritable, hts⟩) h
    · cases h
      refine ⟨hts, fun chars' heq => ?_⟩
      cases heq
      exact List.forall_mem_cons.2 ⟨Bool.eq_false_iff.2 hend, hchars⟩
  | string chars high? =>
    simp only [scanChar] at h
    split_ifs at h
    · cases h
      exact .of_tokens (List.forall_mem_cons.2 ⟨Text.isValid_ofChars _, hts⟩) (by simp)
    · cases h
      exact .of_tokens hts (by simp)
    · cases h
      exact .of_tokens hts (by simp)
  | escape chars high? =>
    simp only [scanChar] at h
    split_ifs at h
    · cases h
      exact .of_tokens hts (by simp)
    · obtain ⟨e, -, rfl⟩ := Option.map_eq_some_iff.1 h
      exact .of_tokens hts (by simp)
  | unicode chars high? digits =>
    simp only [scanChar] at h
    split_ifs at h
    · obtain ⟨e, -, rfl⟩ := Option.map_eq_some_iff.1 h
      exact .of_tokens hts (by simp)
    · obtain ⟨values, -, h⟩ := Option.bind_eq_some_iff.1 h
      cases h
      refine ⟨hts, fun chars' heq => ?_⟩
      simp only [afterUnicode] at heq
      split_ifs at heq
      split at heq <;> cases heq

theorem tokens?_isWritable {text : Text} (h : tokens? text = some ts) :
    ∀ t ∈ ts, t.IsWritable := by
  obtain ⟨s, hs, h⟩ := Option.bind_eq_some_iff.1 h
  have hstart : Scan.IsWritable ⟨[], .between⟩ := .of_tokens (List.forall_mem_nil _) (by simp)
  have hwritable : s.IsWritable :=
    of_foldlM (fun hs _ => scanChar_isWritable hs) (fun _ _ => trivial) hstart hs
  split at h
  · cases h
    exact fun t ht => hwritable.tokens t (List.mem_reverse.1 ht)
  · rename_i chars hmode
    obtain ⟨v, hv, h⟩ := Option.bind_eq_some_iff.1 h
    cases h
    have hchars := hwritable.word chars hmode
    have hv : (Token.value v).IsWritable :=
      isWritable_of_word? (fun c hc => hchars c (List.mem_reverse.1 hc)) hv
    exact fun t ht => List.forall_mem_cons.2 ⟨hv, hwritable.tokens⟩ t (List.mem_reverse.1 ht)
  · cases h

/-! ### Values -/

/-- The contents of an open array or object can be written. -/
def Frame.IsWritable : Frame → Prop
  | .array items => AllWritable items
  | .object members name => MembersWritable members ∧ name.isValid = true

/-- The members and names that are kept for later can be written. -/
def Expectation.IsWritable : Expectation → Prop
  | .name members => MembersWritable members
  | .colon members text => MembersWritable members ∧ text.isValid = true
  | _ => True

/-- All that was put together can be written. -/
structure Build.IsWritable (b : Build) : Prop where
  stack : ∀ frame ∈ b.stack, frame.IsWritable
  expects : b.expects.IsWritable
  result : ∀ v ∈ b.result?, v.IsWritable

variable {b b' : Build} {v : Json}

theorem put_isWritable (hb : b.IsWritable) (hv : v.IsWritable) : (put b v).IsWritable := by
  obtain ⟨stack, depth, expects, result?⟩ := b
  obtain ⟨hstack, -, hresult⟩ := hb
  match stack with
  | [] => exact ⟨nofun, trivial, by simpa [put] using hv⟩
  | .array items :: stack =>
    obtain ⟨hframe, hstack⟩ := List.forall_mem_cons.1 hstack
    have hitems : Frame.IsWritable (.array (v :: items)) := by
      simpa [Frame.IsWritable, AllWritable] using ⟨hv, hframe⟩
    exact ⟨List.forall_mem_cons.2 ⟨hitems, hstack⟩, trivial, hresult⟩
  | .object members name :: stack =>
    obtain ⟨⟨hmembers, hname⟩, hstack⟩ := List.forall_mem_cons.1 hstack
    have hobject : Frame.IsWritable (.object ((name, v) :: members) name) := by
      simpa [Frame.IsWritable, MembersWritable] using ⟨⟨hname, hv, hmembers⟩, hname⟩
    exact ⟨List.forall_mem_cons.2 ⟨hobject, hstack⟩, trivial, hresult⟩

theorem putExpected_isWritable (hb : b.IsWritable) (hv : v.IsWritable)
    (h : putExpected b v = some b') : b'.IsWritable := by
  unfold putExpected at h
  split at h
  · cases h
    exact put_isWritable hb hv
  · cases h
    exact put_isWritable hb hv
  · cases h

theorem enter_isWritable {frame : Frame} {expects : Expectation} (hb : b.IsWritable)
    (hframe : frame.IsWritable) (hexpects : expects.IsWritable)
    (h : enter b frame expects = some b') : b'.IsWritable := by
  have hstack := List.forall_mem_cons.2 ⟨hframe, hb.stack⟩
  unfold enter at h
  split at h
  · split_ifs at h
    cases h
    exact ⟨hstack, hexpects, hb.result⟩
  · split_ifs at h
    cases h
    exact ⟨hstack, hexpects, hb.result⟩
  · cases h

theorem close_isWritable {stack : List Frame} (hb : b.IsWritable)
    (hstack : ∀ frame ∈ stack, frame.IsWritable) (hv : v.IsWritable) :
    (close b stack v).IsWritable :=
  put_isWritable ⟨hstack, hb.expects, hb.result⟩ hv

theorem buildToken_isWritable {t : Token} (hb : b.IsWritable) (ht : t.IsWritable)
    (h : buildToken b t = some b') : b'.IsWritable := by
  obtain ⟨stack, depth, expects, result?⟩ := b
  have htop {frame : Frame} {rest : List Frame} (heq : stack = frame :: rest) :
      frame.IsWritable ∧ ∀ frame ∈ rest, frame.IsWritable :=
    List.forall_mem_cons.1 (heq ▸ hb.stack)
  -- A token starts a frame, ends one, or fills the place that is waiting in the topmost one.
  cases t with
  | value v => exact putExpected_isWritable hb ht h
  | string text =>
    simp only [buildToken] at h
    split at h
    · cases h
      exact ⟨hb.stack, ⟨hb.expects, ht⟩, hb.result⟩
    · cases h
      exact ⟨hb.stack, ⟨trivial, ht⟩, hb.result⟩
    · exact putExpected_isWritable hb (by rw [IsWritable]; exact ht) h
  | openArray =>
    have hframe : Frame.IsWritable (.array []) := by simp [Frame.IsWritable, AllWritable]
    have hexpects : Expectation.IsWritable .valueOrClose := trivial
    exact enter_isWritable hb hframe hexpects h
  | openObject =>
    have hframe : Frame.IsWritable (.object [] .empty) := by
      simp only [Frame.IsWritable, MembersWritable, true_and]
      rfl
    have hexpects : Expectation.IsWritable .nameOrClose := trivial
    exact enter_isWritable hb hframe hexpects h
  | closeArray =>
    simp only [buildToken] at h
    split at h
    · cases h
      exact close_isWritable hb (htop rfl).2 (by rw [IsWritable, AllWritable]; trivial)
    · cases h
      refine close_isWritable hb (htop rfl).2 ?_
      have hitems := allWritable_iff.1 (htop rfl).1
      rw [IsWritable, allWritable_iff]
      simpa using hitems
    · cases h
  | closeObject =>
    simp only [buildToken] at h
    split at h
    · cases h
      exact close_isWritable hb (htop rfl).2 (by rw [IsWritable, MembersWritable]; trivial)
    · cases h
      refine close_isWritable hb (htop rfl).2 ?_
      have hmembers := membersWritable_iff.1 (htop rfl).1.1
      rw [IsWritable, membersWritable_iff]
      simpa using hmembers
    · cases h
  | comma =>
    simp only [buildToken] at h
    split at h
    · cases h
      exact ⟨hb.stack, trivial, hb.result⟩
    · cases h
      exact ⟨hb.stack, (htop rfl).1.1, hb.result⟩
    · cases h
  | colon =>
    simp only [buildToken] at h
    split at h
    · cases h
      exact ⟨List.forall_mem_cons.2 ⟨hb.expects, (htop rfl).2⟩, trivial, hb.result⟩
    · cases h

/-- Whatever is read can be written. -/
theorem isWritable_of_parse? {text : Text} (h : parse? text = some v) : v.IsWritable := by
  obtain ⟨ts, hts, h⟩ := Option.bind_eq_some_iff.1 h
  obtain ⟨b, hb, h⟩ := Option.bind_eq_some_iff.1 h
  have hstart : Build.IsWritable ⟨[], 0, .value, none⟩ := ⟨List.forall_mem_nil _, trivial, nofun⟩
  have hwritable : b.IsWritable :=
    @of_foldlM _ _ buildToken _ _ buildToken_isWritable _ _ _ (tokens?_isWritable hts) hstart hb
  split at h
  · exact hwritable.result v h
  · cases h

end SheetFormula.Json
