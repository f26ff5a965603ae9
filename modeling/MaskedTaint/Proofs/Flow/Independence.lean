import MaskedTaint.Proofs.Flow.Files
import MaskedTaint.Proofs.Flow.Mirror
import MaskedTaint.Proofs.Masking.Mirror

/-! Files are recorded independently of one another. Read after other files by a masker at rest,
a file with scopes of its own leaves the same tokens as it does alone, up to one renaming, and
fails alike. -/

namespace MaskedTaint

/-! ### Parameters -/

def Contents.sites (file : String) : Contents where
  listed scope _ t := (∃ i m, t = .site i m) → t.IsSiteIn file scope
  argument _ _ := True
  parameter scope t := t.IsSiteIn file scope

theorem Contents.sites_closed (file : String) : (sites file).Closed := by
  refine ⟨fun scope key t n h ht => ?_, fun scope t h _ => h⟩
  cases t with
  | site i m =>
    have hsite := h ⟨i, m, rfl⟩
    exact ⟨⟨_, _, rfl⟩, hsite.kind, hsite.line, ⟨n, rfl⟩, hsite.scope, hsite.file⟩
  | jump i m target args =>
    obtain ⟨j, m', hm⟩ := ht
    cases hm

namespace Recorder

theorem admits_sites {r : Recorder} {t : Masked} (ht : t.symbol.IsListed) (b : Block) :
    r.Admits (.sites r.file) b t := by
  have hsite : ∀ (id : Nat) (scope : String), Token.IsSiteIn r.file scope
      (.site id (r.markOf { b with scope := scope } t t.symbol.name)) := fun id scope =>
    ⟨⟨_, _, rfl⟩, ⟨t.symbol, ht, rfl⟩, ⟨t.line, rfl⟩, ⟨0, rfl⟩, rfl, rfl⟩
  refine ⟨fun _ _ _ => hsite _ b.scope, trivial, fun _ _ => trivial, ?_, ?_, fun scope _ => hsite _ scope⟩
  · rintro callee args - -
    refine ⟨trivial, ?_⟩
    rintro key - ⟨i, m, hm⟩
    cases hm
  · rintro ⟨i, m, hm⟩
    cases hm

structure Proper (r : Recorder) (count : Nat) : Prop where
  sound : r.Sound count
  filling : r.Filling (.sites r.file) r
  sites : r.flows.Holds (.sites r.file)

variable {r : Recorder} {count count' : Nat} {t : Masked}

theorem Filling.proper {r' : Recorder} (hr : r.Proper count) (h : r'.Filling (.sites r.file) r)
    (hs : r'.Sound count) : r'.Proper count := by
  have hfile : r'.file = r.file := h.stored.file
  refine ⟨hs, ?_, ?_⟩ <;> rw [hfile]
  · exact h.self
  · exact h.stored.flows.holds (Contents.sites_closed _) hr.sites

theorem Proper.mono (hle : count ≤ count') (h : r.Proper count) : r.Proper count' :=
  ⟨h.sound.mono hle, h.filling, h.sites⟩

section

variable (h : r.Proper count)

include h

theorem Proper.filling_take (ht : t.symbol.IsListed) (place : Int) :
    (r.take t place).Filling (.sites r.file) r :=
  h.filling.take (Contents.sites_closed _) (fun b _ _ => admits_sites ht b) place

theorem Proper.filling_takeEnd : (takeEnd r).2.Filling (.sites r.file) r :=
  h.filling.takeEnd (Contents.sites_closed _)

theorem Proper.take (ht : t.symbol.Known count) (place : Int) : (r.take t place).Proper count :=
  (h.filling_take ht.listed place).proper h (h.sound.take ht place)

theorem Proper.takeEnd : (takeEnd r).2.Proper count :=
  h.filling_takeEnd.proper h h.sound.takeEnd

theorem Proper.knowsSites (scope : String) : r.KnowsSites scope := by
  refine ⟨h.filling.stored.params scope, fun t ht => ?_⟩
  have hfits := h.sound.flows.getD_tokens? t ht
  refine h.sites.tokens? t ht ?_
  cases hfits.recorded (by decide) with
  | site hm hkind => exact ⟨_, _, rfl⟩
  | call hm hkind hn hargs => exact absurd hkind ((hfits.param rfl).ne_special .call)

end

theorem Proper.ready {ρ : Renaming} {base : Structure} (h : r.Proper count)
    (hscopes : ∀ s ∈ r.functions.names, ρ.text s ∉ base.names) : r.Ready ρ base :=
  ⟨hscopes, fun b hb => (h.filling.blocks b hb).scope, h.knowsSites⟩

/-! ### Runs -/

theorem Filling.scopes_close (h : r.Filling .any r) (m : Masker) (patience : Nat) :
    r.functions.names ⊆ (r.close m patience).recorder.functions.names := by
  have hclose : ∀ {r' : Recorder} {m : Masker}, r'.Filling .any r →
      (r'.close m patience).recorder.Filling .any r := by
    induction patience with
    | zero => exact id
    | succ patience ih =>
      intro r' m h'
      have hnext := h'.takeEnd Contents.any_closed
      unfold close
      rcases ht : Recorder.takeEnd r' with ⟨e | u, r''⟩
      · rwa [ht] at hnext
      · rw [ht] at hnext
        dsimp only
        split
        · exact hnext
        · exact ih hnext
  exact (hclose h).stored.scopes

end Recorder

namespace Recorded

structure Mirrors (ρ : Renaming) (base : Structure) (k : Nat) (x₁ x₂ : Recorded) : Prop where
  recorder : Recorder.Mirrors ρ base k x₁.recorder x₂.recorder
  failure : x₁.failure = x₂.failure

end Recorded

namespace Recorder

variable {ρ : Renaming} {base : Structure} {k : Nat} {r₁ r₂ : Recorder} {m₁ m₂ F₁ F₂ : Masker}
  {count : Nat}

section

variable (h : Mirrors ρ base k r₁ r₂)

include h

theorem Mirrors.patience : r₁.patience = r₂.patience := by
  obtain ⟨-, hblocks⟩ := h
  unfold Recorder.patience
  generalize r₁.blocks = bs₁ at hblocks
  generalize r₂.blocks = bs₂ at hblocks
  induction hblocks with
  | nil => rfl
  | @cons b₁ b₂ bs₁ bs₂ hb hbs ih =>
    simp only [List.length_cons, List.flatMap_cons, List.length_append, hb.tasks, List.length_map] at ih ⊢
    omega

theorem Mirrors.isEmpty : r₁.blocks.isEmpty = r₂.blocks.isEmpty := by
  obtain ⟨-, hblocks⟩ := h
  generalize r₁.blocks = bs₁ at hblocks
  generalize r₂.blocks = bs₂ at hblocks
  cases hblocks <;> rfl

theorem Mirrors.names : r₁.functions.names = r₂.functions.names.map ρ.text := by
  rw [h.reflects.functions, Table.names_rename]

theorem Mirrors.ready (hproper : r₂.Proper count)
    (hscopes : ∀ s ∈ r₁.functions.names, s ∉ base.names) : r₂.Ready ρ base := by
  refine hproper.ready fun s hs => hscopes _ ?_
  rw [h.names]
  exact List.mem_map_of_mem hs

end

theorem Mirrors.close (hρ : ρ.Faithful) (h : Mirrors ρ base k r₁ r₂) (hfilling : r₁.Filling .any r₁)
    (hproper : r₂.Proper count) (n₁ n₂ : Masker) (patience : Nat)
    (hscopes : ∀ s ∈ (r₁.close n₁ patience).recorder.functions.names, s ∉ base.names) :
    Recorded.Mirrors ρ base k (r₁.close n₁ patience) (r₂.close n₂ patience) := by
  induction patience generalizing r₁ r₂ n₁ n₂ with
  | zero => exact ⟨h, rfl⟩
  | succ patience ih =>
    have hends := (hfilling.takeEnd Contents.any_closed).self
    have hready := h.ready hproper fun s hs => hscopes s (hfilling.scopes_close n₁ _ hs)
    have hnext := hproper.takeEnd
    have hafter : ∀ s ∈ (Recorder.takeEnd r₁).2.functions.names, s ∉ base.names := by
      intro s hs
      refine hscopes s ?_
      unfold Recorder.close
      rcases ht : Recorder.takeEnd r₁ with ⟨e | u, r'⟩
      · rwa [ht] at hs
      · rw [ht] at hs hends
        dsimp only
        split
        · exact hs
        · exact hends.scopes_close _ _ hs
    obtain ⟨hr, ho⟩ := h.takeEnd hρ hready hafter
    unfold Recorder.close at hscopes ⊢
    rcases ht₁ : Recorder.takeEnd r₁ with ⟨o₁, r₁'⟩
    rcases ht₂ : Recorder.takeEnd r₂ with ⟨o₂, r₂'⟩
    rw [ht₁, ht₂] at hr ho
    rw [ht₂] at hnext
    rw [ht₁] at hscopes hends
    cases ho with
    | error he => exact ⟨hr, congrArg some he⟩
    | ok _ =>
      dsimp only at hscopes ⊢
      have hempty := hr.isEmpty
      split
      · rename_i hstopped
        rw [if_pos (hempty ▸ hstopped)]
        exact ⟨hr, rfl⟩
      · rename_i hopen
        rw [if_neg hopen] at hscopes
        rw [if_neg (hempty ▸ hopen)]
        exact ih hr hends hnext _ _ hscopes

theorem Mirrors.follow (hF : ρ = Masker.between F₁ F₂) (hρ : ρ.Faithful) {r₁ r₂ : Recorder}
    {m₁ m₂ : Masker} (h : Mirrors ρ base k r₁ r₂) (hfilling : r₁.Filling .any r₁)
    (hsig : Masker.Together (Masker.mirrored ρ) (Option.Rel (Masker.mirrored ρ).Read)
      Masker.significant Masker.significant m₁ m₂)
    (hlisted : m₂.IsListed) (hproper : r₂.Proper m₂.funcs.length)
    (h₁ : (r₁.follow m₁).masker.Within F₁) (h₂ : (r₂.follow m₂).masker.Within F₂)
    (hscopes : ∀ s ∈ (r₁.follow m₁).recorder.functions.names, s ∉ base.names) :
    Recorded.Mirrors ρ base k (r₁.follow m₁) (r₂.follow m₂) := by
  by_cases hblocks₂ : r₂.blocks = []
  · have hblocks₁ : r₁.blocks = [] := by
      have := h.isEmpty
      rw [hblocks₂] at this
      simpa using this
    rw [follow_stopped m₁ hblocks₁, follow_stopped m₂ hblocks₂]
    exact ⟨h, rfl⟩
  · have hblocks₁ : r₁.blocks ≠ [] := by
      have := h.isEmpty
      intro hb
      rw [hb] at this
      exact hblocks₂ (by simpa using this.symm)
    have hgrows := Masker.token_growing m₂
    have htoken := Masker.token_mirrors hF hsig
      ((token_grows_follow m₁ hblocks₁).within.trans h₁) ((token_grows_follow m₂ hblocks₂).within.trans h₂)
    rcases ht₁ : Masker.token m₁ with ⟨o₁, m₁'⟩
    rcases ht₂ : Masker.token m₂ with ⟨o₂, m₂'⟩
    rw [Masker.Together, ht₁, ht₂] at htoken
    rw [ht₂] at hgrows
    cases htoken with
    | error hm he =>
      rw [follow_failed ht₁ hblocks₁, follow_failed ht₂ hblocks₂]
      exact ⟨h, congrArg (some ∘ RecordError.mask) he.eq⟩
    | ok hm hu =>
      cases hu with
      | none =>
        rw [follow_end ht₁ hblocks₁] at hscopes ⊢
        rw [follow_end ht₂ hblocks₂, ← h.patience]
        exact h.close hρ hfilling hproper _ _ _ hscopes
      | @some u₁ t hu =>
        obtain rfl : u₁ = ρ.masked t := hu
        have hknown := Masker.token_known hlisted ht₂
        have hproper' := hproper.mono hgrows.funcs.kept.length_le
        have hnext := hproper'.take hknown m₂'.lexer.pos
        have hends : Masker.EndsAlike m₁'.last m₂'.last := by
          rw [Masker.last_of_token ht₁, Masker.last_of_token ht₂]
          exact Masker.endsAlike_map ρ (some t)
        rw [follow_step ht₁ hblocks₁, Masker.Mirrors.lexer_eq hm] at h₁ hscopes ⊢
        rw [follow_step ht₂ hblocks₂] at h₂ ⊢
        have hstep := hfilling.take Contents.any_closed (fun b _ _ => r₁.admits_any b _)
          (t := ρ.masked t) m₂'.lexer.pos
        have hsub := (follow_any m₁' hstep.self).stored.scopes
        have hready := h.ready hproper fun s hs => hscopes s (hsub (hstep.stored.scopes hs))
        have htaken := h.take hρ hready hknown.listed m₂'.lexer.pos fun s hs => hscopes s (hsub hs)
        exact htaken.follow hF hρ hstep.self (hm.significant hends) (hgrows.listed hlisted) hnext h₁ h₂ hscopes
termination_by m₂.size
decreasing_by exact Masker.size_lt_of_token ht₂

end Recorder

/-! ### The beginning of a file -/

theorem Lexer.next_of_html {l l' : Lexer} {t : Lexeme} (hmode : l.mode = .html)
    (h : l.next = .lexeme t l') :
    t.kind = .openTag ∨ t.kind = .sink .xss ∨ t.kind = .inlineHtml ∧ l'.mode = .html := by
  cases Lexer.does_next h with
  | lexeme hloaded hrest hmatch hact =>
    have hr := (firstMatch_spec hmatch).1
    rw [hmode] at hr
    simp only [Mode.rules, List.mem_cons, List.not_mem_nil, or_false] at hr
    rcases hr with rfl | rfl
    · simp only [Rule.openTag, Rule.counting_action, Rule.spelled, Lexer.act, Lexer.shift,
        Except.map] at hact
      cases hact
      dsimp only
      split
      · exact .inr (.inl rfl)
      · exact .inl rfl
    · simp only [Rule.html, Rule.counting_action, Rule.simple, Lexer.act, Lexer.shift,
        Except.map] at hact
      cases hact
      exact .inr (.inr ⟨rfl, hmode⟩)

namespace Masker

variable {m m' : Masker}

variable {l : Lexer}

theorem significant_drop {t : Lexeme} {last : Option Masked} (hp : m.peeked = none)
    (hn : m.lexer.next = .lexeme t l) (hd : sift m.last t = .drop last) :
    significant m = significant { m with last := last, lexer := l } := by
  have hsift : siftLexer m.last m.lexer = siftLexer last l := by
    rw [siftLexer]
    split <;> simp_all
  have hp' : ({ m with last := last, lexer := l } : Masker).peeked = none := hp
  rw [significant_apply_none hp, significant_apply_none hp', siftOn, siftOn, hsift]

theorem significant_keep {t : Lexeme} {u : Masked} (hp : m.peeked = none)
    (hn : m.lexer.next = .lexeme t l) (hk : sift m.last t = .keep u) :
    significant m = (.ok (some u), { m with lexer := l }) := by
  have hsift : siftLexer m.last m.lexer = (.ok (some u), m.last, l) := by
    rw [siftLexer]
    split <;> simp_all
  rw [significant_apply_none hp, siftOn, hsift]

theorem significant_finished (hp : m.peeked = none) (hn : m.lexer.next = .finished l) :
    significant m = (.ok none, { m with lexer := l }) := by
  have hsift : siftLexer m.last m.lexer = (.ok none, m.last, l) := by
    rw [siftLexer]
    split <;> simp_all
  rw [significant_apply_none hp, siftOn, hsift]

theorem significant_failed {e : LexError} (hp : m.peeked = none)
    (hn : m.lexer.next = .failed e l) : significant m = (.error (.lex e), { m with lexer := l }) := by
  have hsift : siftLexer m.last m.lexer = (.error e, m.last, l) := by
    rw [siftLexer]
    split <;> simp_all
  rw [significant_apply_none hp, siftOn, hsift]

theorem token_congr (h : significant m = significant m') : token m = token m' := by
  rw [token, Act.bind_apply, Act.bind_apply, h]

theorem token_semicolon {u : Masked} {n : Masker} (hsig : significant m = (.ok (some u), n))
    (hu : u.symbol = .plain .semicolon) (hblocks : n.blocks = []) (hahead : n.blockAhead = false) :
    token m = (.ok (some u), { n with last := some u }) := by
  have hsettle : settleBlock (some u) n = (.ok (some u), n) := by
    simp [settleBlock, Act.state_bind, hahead]
  have hmask : mask u n = (.ok u, n) := by
    simp [mask, hu, endStatement, Act.state_bind, hblocks]
  rw [token, Act.bind_of_ok hsig, Act.bind_of_ok hsettle]
  dsimp only
  rw [Act.bind_of_ok hmask]
  rfl

/-- Nothing of the file has been delivered yet. The first masker may have ended a statement in
front of it, and takes the tags that lead into code for statement ends then. -/
structure Fresh (ρ : Renaming) (m₁ m₂ : Masker) : Prop where
  mirrors : Mirrors ρ m₁ m₂
  peeked : m₂.peeked = none
  blocks : m₂.blocks = []
  blockAhead : m₂.blockAhead = false
  last : m₂.lexer.mode = .html ∧ m₂.last = none ∨
    (∃ u₁, m₁.last = some u₁ ∧ (u₁.symbol = .plain .semicolon ∨ u₁.symbol = .plain .openTag)) ∧
      ∃ u₂, m₂.last = some u₂ ∧ u₂.symbol = .plain .openTag

end Masker

namespace Recorder

variable {ρ : Renaming} {base : Structure} {k : Nat} {r₁ r₂ : Recorder} {m₁ m₂ F₁ F₂ : Masker}

def isUntouched (b : Block) : Prop := b.tasks = [] ∧ b.last = none

theorem Mirrors.take_semicolon {b₂ : Block} {u : Masked} (h : Mirrors ρ base k r₁ r₂)
    (hblocks : r₂.blocks = [b₂]) (hb₂ : isUntouched b₂) (hu : u.symbol = .plain .semicolon) (place : Int) :
    Mirrors ρ base k (r₁.take u place) r₂ := by
  obtain ⟨hr, hbs⟩ := h
  rw [hblocks, List.forall₂_cons_right_iff] at hbs
  obtain ⟨b₁, outer, hb, ho, hb₁⟩ := hbs
  rw [List.forall₂_nil_right_iff] at ho
  subst ho
  have htasks : b₁.tasks = [] := by rw [hb.tasks, hb₂.1]; rfl
  have htake : r₁.take u place =
      { r₁ with blocks := [{ b₁ with tasks := [], last := some (.plain .semicolon) }] } := by
    simp only [Recorder.take, hb₁, htasks]
    rw [start_of_not (by rw [hu]; rfl), hu]
    rfl
  rw [htake]
  refine ⟨{ hr with }, ?_⟩
  rw [hblocks]
  refine .cons { hb with last := ?_, tasks := ?_ } .nil
  · rw [hb₂.2]
    rfl
  · rw [hb₂.1]
    rfl

theorem Mirrors.follow_fresh (hF : ρ = Masker.between F₁ F₂) (hρ : ρ.Faithful) {r₁ r₂ : Recorder}
    {m₁ m₂ : Masker} {b₂ : Block} (h : Mirrors ρ base k r₁ r₂) (hfilling : r₁.Filling .any r₁)
    (hblocks : r₂.blocks = [b₂]) (hb₂ : isUntouched b₂) (hm : Masker.Fresh ρ m₁ m₂)
    (hproper : r₂.Proper m₂.funcs.length)
    (h₁ : (r₁.follow m₁).masker.Within F₁) (h₂ : (r₂.follow m₂).masker.Within F₂)
    (hscopes : ∀ s ∈ (r₁.follow m₁).recorder.functions.names, s ∉ base.names) :
    Recorded.Mirrors ρ base k (r₁.follow m₁) (r₂.follow m₂) := by
  have hlisted : m₂.IsListed := fun t ht => by simp [hm.peeked] at ht
  have hp₁ : m₁.peeked = none := hm.mirrors.peeked_eq.trans hm.peeked
  have hlexer := hm.mirrors.lexer_eq
  have hne₂ : r₂.blocks ≠ [] := by simp [hblocks]
  have hne₁ : r₁.blocks ≠ [] := by
    intro hnil
    have hempty := h.isEmpty
    rw [hnil, hblocks] at hempty
    cases hempty
  have hstep : Masker.Together (Masker.mirrored ρ) (Option.Rel (Masker.mirrored ρ).Read)
      Masker.significant Masker.significant m₁ m₂ →
      Recorded.Mirrors ρ base k (r₁.follow m₁) (r₂.follow m₂) := fun hsig =>
    h.follow hF hρ hfilling hsig hlisted hproper h₁ h₂ hscopes
  have hgoes : ∀ l last₁ last₂, Masker.Mirrors ρ { m₁ with last := last₁, lexer := l }
      { m₂ with last := last₂, lexer := l } := fun l _ _ =>
    { hm.mirrors with lexer := rfl, reading := rfl, last := trivial }
  cases hn : m₂.lexer.next with
  | finished l =>
    refine hstep ?_
    rw [Masker.Together, Masker.significant_finished hm.peeked hn,
      Masker.significant_finished hp₁ (hlexer ▸ hn)]
    exact .ok (hgoes l _ _) .none
  | failed e l =>
    refine hstep ?_
    rw [Masker.Together, Masker.significant_failed hm.peeked hn,
      Masker.significant_failed hp₁ (hlexer ▸ hn)]
    exact .error (hgoes l _ _).toLevel (.lex rfl)
  | lexeme t l =>
    have hn₁ : m₁.lexer.next = .lexeme t l := hlexer ▸ hn
    -- the same lexeme is kept by both
    have hkeep : Masker.sift m₁.last t = .keep t.masked → Masker.sift m₂.last t = .keep t.masked →
        Recorded.Mirrors ρ base k (r₁.follow m₁) (r₂.follow m₂) := by
      intro hu₁ hu₂
      refine hstep ?_
      rw [Masker.Together, Masker.significant_keep hm.peeked hn hu₂,
        Masker.significant_keep hp₁ hn₁ hu₁]
      exact .ok (hgoes l _ _) (.some (Masker.Pairing.read rfl))
    -- both go on behind a lexeme
    have hdrop : ∀ last₁ last₂, Masker.sift m₁.last t = .drop last₁ → Masker.sift m₂.last t = .drop last₂ →
        Masker.Fresh ρ { m₁ with last := last₁, lexer := l } { m₂ with last := last₂, lexer := l } →
        Recorded.Mirrors ρ base k (r₁.follow m₁) (r₂.follow m₂) := by
      intro last₁ last₂ hd₁ hd₂ hfresh
      have he₁ := follow_congr (r := r₁)
        (Masker.token_congr (Masker.significant_drop hp₁ hn₁ hd₁)) hne₁
      have he₂ := follow_congr (r := r₂)
        (Masker.token_congr (Masker.significant_drop hm.peeked hn hd₂)) hne₂
      rw [he₁] at h₁ hscopes ⊢
      rw [he₂] at h₂ ⊢
      exact h.follow_fresh hF hρ hfilling hblocks hb₂ hfresh hproper h₁ h₂ hscopes
    by_cases hopen : t.kind = .openTag
    · have hd₂ : Masker.sift m₂.last t = .drop (some t.masked) := by
        rcases hm.last with ⟨-, hlast⟩ | ⟨-, u₂, hlast, hu₂⟩
        · simp [Masker.sift, hopen, hlast]
        · simp [Masker.sift, hopen, hlast, hu₂]
      have htag : (Lexeme.masked t).symbol = .plain .openTag := congrArg Symbol.plain hopen
      by_cases hsemicolon : m₁.last.map Masked.symbol = some (.plain .semicolon)
      · -- the tag is a statement end for the first masker
        let u : Masked := { t.masked with symbol := .plain .semicolon, text := ";" }
        have hk₁ : Masker.sift m₁.last t = .keep u := by
          simp [Masker.sift, hopen, hsemicolon, u]
        have ht₁ := Masker.token_semicolon (Masker.significant_keep hp₁ hn₁ hk₁) rfl
          (by simp [hm.mirrors.blocks, hm.blocks]) (hm.mirrors.blockAhead.trans hm.blockAhead)
        have he₂ := follow_congr (r := r₂)
          (Masker.token_congr (Masker.significant_drop hm.peeked hn hd₂)) hne₂
        rw [follow_step ht₁ hne₁] at h₁ hscopes ⊢
        rw [he₂] at h₂ ⊢
        have htaken := h.take_semicolon (u := u) hblocks hb₂ rfl l.pos
        have hnext := (hfilling.take Contents.any_closed (fun b _ _ => r₁.admits_any b u) l.pos).self
        refine htaken.follow_fresh hF hρ hnext hblocks hb₂ ?_ hproper h₁ h₂ hscopes
        exact ⟨hgoes l _ _, hm.peeked, hm.blocks, hm.blockAhead,
          .inr ⟨⟨u, rfl, .inl rfl⟩, _, rfl, htag⟩⟩
      · have hd₁ : Masker.sift m₁.last t = .drop (some t.masked) := by
          simp [Masker.sift, hopen, hsemicolon]
        refine hdrop _ _ hd₁ hd₂ ⟨hgoes l _ _, hm.peeked, hm.blocks, hm.blockAhead, ?_⟩
        exact .inr ⟨⟨_, rfl, .inr htag⟩, _, rfl, htag⟩
    · rcases hm.last with ⟨hmode, hlast⟩ | ⟨⟨u₁, hlast₁, hu₁⟩, u₂, hlast₂, hu₂⟩
      · rcases Lexer.next_of_html hmode hn with htag | hsink | ⟨hhtml, hmode'⟩
        · exact absurd htag hopen
        · exact hkeep (by simp [Masker.sift, hsink, Kind.isLayout])
            (by simp [Masker.sift, hsink, Kind.isLayout])
        · refine hdrop m₁.last m₂.last (by simp [Masker.sift, hhtml, Kind.isLayout])
            (by simp [Masker.sift, hhtml, Kind.isLayout]) ?_
          exact ⟨hgoes l _ _, hm.peeked, hm.blocks, hm.blockAhead, .inl ⟨hmode', hlast⟩⟩
      · have hfresh : Masker.Fresh ρ { m₁ with last := m₁.last, lexer := l }
            { m₂ with last := m₂.last, lexer := l } :=
          ⟨hgoes l _ _, hm.peeked, hm.blocks, hm.blockAhead,
            .inr ⟨⟨u₁, hlast₁, hu₁⟩, u₂, hlast₂, hu₂⟩⟩
        by_cases hclose : t.kind = .closeTag
        · refine hdrop m₁.last m₂.last ?_ ?_ hfresh
          · rcases hu₁ with hu₁ | hu₁ <;> simp [Masker.sift, hclose, hlast₁, hu₁, Masker.needsNoEnd]
          · simp [Masker.sift, hclose, hlast₂, hu₂, Masker.needsNoEnd]
        · by_cases hlayout : t.kind.isLayout = true
          · refine hdrop m₁.last m₂.last ?_ ?_ hfresh <;> unfold Masker.sift <;> split <;> simp_all
          · refine hkeep ?_ ?_ <;> unfold Masker.sift <;> split <;> simp_all
termination_by m₂.lexer.rest.length
decreasing_by all_goals exact Lexer.next_rest_lt hn

end Recorder

namespace Renaming

noncomputable def entry (ρ : Renaming) (k : Nat) (e : String × String × Token) :
    String × String × Token :=
  (ρ.text e.1, ρ.text e.2.1, ρ.token k e.2.2)

theorem entriesOf_flows (ρ : Renaming) (k : Nat) (d : Structure) (file : String) :
    (ρ.flows k d).entriesOf file = (d.entriesOf file).map (ρ.entry k) := by
  simp only [Structure.entriesOf, flows, Table.rename, scope, List.flatMap_map, List.map_flatMap,
    List.map_map, List.filter_map]
  simp only [Function.comp_def, token_file, entry]

end Renaming

/-- At rest between files: outside code, nothing is open, and nothing was read ahead. -/
def Masker.AtRest (m : Masker) : Prop :=
  (m.lexer.mode = .html ∧ m.lexer.stack = [] ∧ m.lexer.heredoc = none ∧ m.lexer.nowdoc = none) ∧
    m.peeked.isNone = true ∧ m.parens = 0 ∧ m.innerParens = 0 ∧ m.blocks = [] ∧
    m.blockAhead = false ∧ m.inDeclaration = false ∧ m.inCall = false

instance (m : Masker) : Decidable m.AtRest := inferInstanceAs (Decidable (_ ∧ _))

theorem Masker.AtRest.fresh {m : Masker} (h : m.AtRest) (ρ : Renaming) (code : List Char) :
    Fresh ρ (m.loadFile code) (({} : Masker).loadFile code) := by
  obtain ⟨⟨hmode, hstack, hheredoc, hnowdoc⟩, hpeeked, hparens, hinner, hblocks, hahead, hdecl, hcall⟩ := h
  have hlexer : (m.loadFile code).lexer = (({} : Masker).loadFile code).lexer := by
    simp only [loadFile, Lexer.load]
    rw [hmode, hstack, hheredoc, hnowdoc]
  have hnone : Option.Rel Eq m.peeked none := by
    rw [Option.isNone_iff_eq_none.mp hpeeked]
    exact .none
  exact ⟨⟨⟨hlexer, trivial, trivial, trivial, trivial, hparens, hinner, hblocks, hahead, hdecl, hcall⟩,
    hlexer, hnone⟩, rfl, rfl, rfl, .inl ⟨rfl, rfl⟩⟩

namespace Project

variable {p : Project} {name : String} {code : List Char}

theorem faithful_between (F₁ : Masker) (name : String) (code : List Char) :
    (Masker.between F₁ (({} : Project).recordFile name code).masker).Faithful := by
  have hgrows := Recorder.follow_grows (({} : Project).recorder name) (({} : Masker).loadFile code)
  exact ⟨Names.convert_injective (hgrows.vars.nodup List.nodup_nil),
    Names.convert_injective (hgrows.ops.nodup List.nodup_nil),
    Names.convert_injective (hgrows.funcs.nodup List.nodup_nil), rfl⟩

theorem proper_recorder (name : String) : (({} : Project).recorder name).Proper 0 := by
  refine ⟨sound_empty.recorder name, filling_recorder _ _ name, ?_⟩
  simp [recorder, Recorder.openScope, Structure.Holds, Structure.putTokens, Table.put, Table.get?,
    Table.empty, Structure.tokens?]

theorem recordFile_mirrors (hrest : p.masker.AtRest) (hname : ¬ Symbol.IsMaskedName name)
    (hmem : name ∈ p.scopesOf name code) (hscopes : ∀ s ∈ p.scopesOf name code, s ∉ p.flows.names) :
    let shared := p.recordFile name code
    let alone := ({} : Project).recordFile name code
    Recorded.Mirrors (Masker.between shared.masker alone.masker) p.flows p.fresh shared alone := by
  intro shared alone
  let ρ := Masker.between shared.masker alone.masker
  have hρ : ρ.Faithful := faithful_between shared.masker name code
  have htext : ρ.text name = name := Renaming.text_of_not hname
  have hproper := proper_recorder name
  have hblank : Recorder.Reflects ρ p.flows p.fresh { file := name, flows := p.flows, fresh := p.fresh }
      { file := name, flows := Table.empty, fresh := 0 } :=
    ⟨rfl, (List.append_nil _).symm, rfl, (Nat.zero_add _).symm, rfl⟩
  have hknows : Recorder.KnowsSites { file := name, flows := Table.empty, fresh := 0 } name :=
    ⟨by simp [Table.empty, Table.get?], by simp [Structure.tokens?, Table.empty, Table.get?]⟩
  have hnew : ρ.text name ∉ p.flows.names := by
    rw [htext]
    exact hscopes name hmem
  have hopen := hblank.openScope hρ hknows hnew
  rw [htext] at hopen
  have hstart : Recorder.Mirrors ρ p.flows p.fresh (p.recorder name) (({} : Project).recorder name) :=
    ⟨{ hopen with }, .cons ⟨htext.symm, rfl, rfl, rfl, rfl, rfl, rfl, rfl, rfl, rfl⟩ .nil⟩
  refine hstart.follow_fresh rfl hρ (filling_recorder _ p name) rfl ⟨rfl, rfl⟩ (hrest.fresh ρ code)
    hproper ?_ ?_ hscopes
  iterate 2 exact ⟨List.prefix_rfl, List.prefix_rfl, List.prefix_rfl⟩

theorem confines_recordFile (hp : p.masker.IsListed) (hflows : p.flows.Confines name []) :
    (p.recordFile name code).recorder.flows.Confines name (p.scopesOf name code) := by
  intro e he l hl t ht hfile
  by_contra hscope
  have hothers := (fills_any hp name code).1.others
  have hmem : e ∈ p.flows.filter fun e => e.1 ∉ p.scopesOf name code :=
    hothers ▸ List.mem_filter.mpr ⟨he, by simpa using hscope⟩
  exact List.not_mem_nil (hflows e (List.mem_filter.mp hmem).1 l hl t ht hfile)

/-- Files are recorded independently of one another. A file whose scopes no other file touches,
read by a masker at rest, fails exactly if it fails alone, and in the end its tokens stand in the
structure of the project as they do in its own, up to one renaming. -/
theorem recordEach_independent (before later : List (String × List Char)) (name : String)
    (code : List Char) (hname : ¬ Symbol.IsMaskedName name)
    (hrest : (recordEach {} before).masker.AtRest)
    (hbefore : List.Disjoint (scopesOfEach {} before) ((recordEach {} before).scopesOf name code))
    (hlater : List.Disjoint
      (scopesOfEach (after ((recordEach {} before).recordFile name code)) later)
      ((recordEach {} before).scopesOf name code)) :
    let shared := (recordEach {} before).recordFile name code
    let alone := ({} : Project).recordFile name code
    shared.failure = alone.failure ∧
      ∃ (ρ : Renaming) (k : Nat), ρ.Faithful ∧
        (recordEach {} (before ++ (name, code) :: later)).flows.entriesOf name =
          (alone.recorder.flows.entriesOf name).map (ρ.entry k) := by
  intro shared alone
  let p := recordEach {} before
  let ρ := Masker.between shared.masker alone.masker
  have hp : p.Sound := sound_empty.recordEach before
  have hmem : name ∈ p.scopesOf name code := (fills_any hp.listed name code).2
  have hscopes : ∀ s ∈ p.scopesOf name code, s ∉ p.flows.names := by
    intro s hs hflows
    have hmem : s ∈ [] ++ scopesOfEach {} before := names_recordEach sound_empty hflows
    exact hbefore hmem hs
  have hmirrors : Recorded.Mirrors ρ p.flows p.fresh shared alone :=
    recordFile_mirrors hrest hname hmem hscopes
  have hearlier : p.flows.Confines name [] :=
    (entriesOf_recordEach sound_empty (fun hin => hbefore hin hmem) (List.disjoint_nil_right _)
      fun e he => absurd he List.not_mem_nil).2
  have hconfines : shared.recorder.flows.Confines name (p.scopesOf name code) :=
    confines_recordFile hp.listed hearlier
  have hfollowing := entriesOf_recordEach (hp.recordFile name code) (fun hin => hlater hin hmem) hlater
    hconfines
  refine ⟨hmirrors.failure, ρ, p.fresh, faithful_between shared.masker name code, ?_⟩
  calc (recordEach {} (before ++ (name, code) :: later)).flows.entriesOf name
      = ((after shared).recordEach later).flows.entriesOf name := by
        rw [recordEach, List.foldl_append]
        rfl
    _ = shared.recorder.flows.entriesOf name := hfollowing.1
    _ = p.flows.entriesOf name ++ (ρ.flows p.fresh alone.recorder.flows).entriesOf name := by
        rw [hmirrors.recorder.reflects.flows, Structure.entriesOf_append]
    _ = (alone.recorder.flows.entriesOf name).map (ρ.entry p.fresh) := by
        rw [Structure.entriesOf_eq_nil hearlier, List.nil_append, Renaming.entriesOf_flows]

def library : List (String × List Char) :=
  [("lib.php", "<?php function f($p) \x7b return $p; \x7d $a = f($_GET['k']); ?>".toList)]

def page : List Char :=
  "<?php function g($q) \x7b if ($q) \x7b $x = $q . 'a'; \x7d return $x; \x7d echo g($b); ?>".toList

def plugin : List (String × List Char) := [("plugin.php", "<?php $d = g(f($b));".toList)]

theorem recordEach_independent_library :
    (recordEach {} library).masker.AtRest ∧
    ((recordEach {} library).recordFile "page.php" page).failure = none ∧
    ∃ (ρ : Renaming) (k : Nat), ρ.Faithful ∧
      (recordEach {} (library ++ ("page.php", page) :: plugin)).flows.entriesOf "page.php" =
        ((({} : Project).recordFile "page.php" page).recorder.flows.entriesOf "page.php").map (ρ.entry k) := by
  have hrest : (recordEach {} library).masker.AtRest := by decide +kernel
  have hfirst : scopesOfEach {} library = ["lib.php", "FUNC1"] := by decide +kernel
  have hpage : (recordEach {} library).scopesOf "page.php" page = ["page.php", "FUNC2"] := by
    decide +kernel
  have hlast : scopesOfEach (after ((recordEach {} library).recordFile "page.php" page)) plugin =
      ["plugin.php"] := by decide +kernel
  have halone : (({} : Project).recordFile "page.php" page).failure = none := by decide +kernel
  obtain ⟨hfailure, hentries⟩ := recordEach_independent library plugin "page.php" page
    (Symbol.not_isMaskedName (by decide)) hrest (by rw [hfirst, hpage]; simp) (by rw [hlast, hpage]; simp)
  exact ⟨hrest, hfailure.trans halone, hentries⟩

/-- Code that is left open goes on in the next file: a quote in its text is taken for a string. -/
theorem exists_failing_behind_open_code : ∃ (before : List (String × List Char)) (code : List Char),
    (recordEach {} before).masker.lexer.mode = .code ∧
    (({} : Project).recordFile "b.php" code).failure = none ∧
    ((recordEach {} before).recordFile "b.php" code).failure =
      some (.mask (.lex (.illegalCharacter 1 "'];"))) :=
  ⟨[("a.php", "<?php $a = 1;".toList)], "it's <?php echo $_GET['x'];".toList, by decide +kernel,
    by decide +kernel, by decide +kernel⟩

end Project

end MaskedTaint
