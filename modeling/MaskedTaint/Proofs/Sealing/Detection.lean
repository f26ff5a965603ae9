import MaskedTaint.Proofs.Sealing.Correspondence

/-! Detection commutes with sealing. An auditor who searches a sealed structure, knowing
only the labels, reports the paths that a search of the plain structure reports, each token
sealed. -/

namespace MaskedTaint

namespace Structure

/-- A structure that can be sealed. All token occurrences have numbers of their own and stand
at different places. Jumps are calls, except in lists of imports. -/
structure Sealable (d : Structure) : Prop where
  distinct : d.Distinct
  ids : (d.occurrences.map Token.id).Nodup
  places : (d.occurrences.map fun t => (t.pos, t.mark.file)).Nodup
  regular : ∀ e ∈ d, ∀ l ∈ e.2, l.1 ≠ Special.imports.name →
    ∀ t ∈ Token.occurrencesIn l.2, t.Regular
  inRange : ∀ t ∈ d.occurrences, t.InRange
  files : ∀ t ∈ d.occurrences, t.mark.file.length < 2 ^ 32
  commas : ∀ t ∈ d.occurrences, ∀ s ∈ t.texts, CommaFree s
  splits : ∀ t ∈ d.occurrences, ∀ u ∈ d.occurrences, t.split.render = u.split.render →
    t.split = u.split

variable {d : Structure} {t : Token}

theorem Sealable.orderly (hd : d.Sealable) : d.Orderly :=
  ⟨hd.distinct, hd.ids, hd.regular, hd.inRange, hd.splits⟩

theorem Meets.commaFree (hd : d.Sealable) (h : d.Meets t) : ∀ s ∈ t.texts, CommaFree s := by
  obtain ⟨o, ho, q, hq, rfl⟩ := h
  have hfree := hd.commas o ho.mem_occurrences
  have hsplit : CommaFree q.split.render := by
    refine hd.commas q hq _ ?_
    cases q <;> simp [Token.texts, Token.split, Token.mark]
  cases o <;>
    simp_all [Token.rebound, Token.texts, Token.split, Search.boundMark]

end Structure

namespace Sealing

variable {nonces : Nat → Bytes} {c : Ciphers} {d : Structure}

theorem origin_eq (hd : d.Sealable) {o u : Token} (ho : d.Flows o) (hu : d.Flows u) {p q : Mark}
    (hpos : (o.rebound p).pos = (u.rebound q).pos)
    (hfile : (o.rebound p).mark.file = (u.rebound q).mark.file) : o = u := by
  refine List.inj_on_of_nodup_map hd.places ho.mem_occurrences hu.mem_occurrences ?_
  have hsame : ∀ (t : Token) (q : Mark), (t.rebound q).pos = t.pos ∧
      (t.rebound q).mark.file = t.mark.file := by
    intro t q
    cases t <;> exact ⟨rfl, rfl⟩
  rw [(hsame o p).1, (hsame u q).1] at hpos
  rw [(hsame o p).2, (hsame u q).2] at hfile
  rw [hpos, hfile]

section

variable (hnonces : ∀ n, (nonces n).length = 16) (hd : d.Sealable) (hc : c.Sound d.sealedNames)

include hnonces hd hc

theorem same_sealAt {a a' b b' : Token} (hma : d.Meets a) (hmb : d.Meets b)
    (ha : sealAt nonces c d.occurrences a = .ok a')
    (hb : sealAt nonces c d.occurrences b = .ok b') : a.same b = a'.same b' := by
  have hsa := sealAt_mark ha
  have hsb := sealAt_mark hb
  have hfa := hma.commaFree hd
  have hfb := hmb.commaFree hd
  rw [Bool.eq_iff_iff]
  constructor
  · intro h
    obtain ⟨hfields, hfile⟩ := Token.fields_of_same hfa hfb h
    obtain ⟨o, ho, p, hp, rfl⟩ := hma
    obtain ⟨u, hu, q, hq, rfl⟩ := hmb
    obtain ⟨_, _, hpos, hdepth, horder, hflow, hsplit, _⟩ := Token.fields_eq_iff.mp hfields
    obtain rfl := origin_eq hd ho hu hpos hfile
    have hbranch : p.mark.SameBranch q.mark := by
      cases o <;> exact ⟨hdepth, horder, hflow, hsplit⟩
    exact same_sealAt_rebound hbranch ha hb
  · intro h
    obtain ⟨hpos, hfile, hbranch⟩ := branch_of_same_sealAt hd.orderly hc hma hmb ha hb h
    have hfile := Cipher.sealWhole_injective (hnonces _) (hnonces _) hsa.file (hfile ▸ hsb.file)
    obtain ⟨o, ho, p, hp, rfl⟩ := hma
    obtain ⟨u, hu, q, hq, rfl⟩ := hmb
    obtain rfl := origin_eq hd ho hu hpos hfile
    have hbranch : p.mark.SameBranch q.mark := by
      cases o <;> exact hbranch
    exact o.same_rebound hbranch

theorem correspondence_faithful :
    (correspondence nonces c d).Faithful .plain (.hiddenBy c.label) where
  toLawful := correspondence_lawful hd.orderly hc
  same _ _ _ _ ha hb := same_sealAt hnonces hd hc ha.1 hb.1 ha.2 hb.2

end

theorem exists_sealStructure (nonces : Nat → Bytes) (hd : d.Sealable) (hc : c.Sound d.sealedNames) :
    ∃ e n, sealStructure nonces c d 0 = (.ok e, n) ∧
      (correspondence nonces c d).Flows .plain d e := by
  obtain ⟨e, n, h⟩ := exists_sealed nonces hd.inRange hd.files hc.total
  exact ⟨e, n, h, sealStructure_flows hd.orderly hc h⟩

theorem mapM_eq_ok {α β ε : Type} {f : α → Except ε β} {l : List α} {l' : List β}
    (h : List.Forall₂ (fun a b => f a = .ok b) l l') : l.mapM f = .ok l' := by
  induction h with
  | nil => rfl
  | cons ha _ ih =>
    rw [List.mapM_cons, ha, ih]
    rfl

end Sealing

namespace Search

open Sealing

/-- For every choice of nonces a structure that can be sealed is sealed, and what the search of
the sealed structure reports is what the search of the plain one reports, token by token sealed
with the nonces of its occurrences. -/
theorem detect_sealed (nonces : Nat → Bytes) (hnonces : ∀ n, (nonces n).length = 16) (c : Ciphers)
    (d : Structure) (hd : d.Sealable) (hc : c.Sound d.sealedNames) :
    ∃ e n, sealStructure nonces c d 0 = (.ok e, n) ∧
      ∀ (limit : Limit) (v : Vulnerability) (paths : List Path),
        (detect .plain limit v { flows := d }).1 = .ok paths →
        ∃ sealed, paths.mapM (fun p => p.mapM (sealAt nonces c d.occurrences)) = .ok sealed ∧
          (detect (.hiddenBy c.label) limit v { flows := e }).1 = .ok sealed := by
  obtain ⟨e, n, hseal, hflows⟩ := exists_sealStructure nonces hd hc
  refine ⟨e, n, hseal, fun limit v paths hpaths => ?_⟩
  have hfaithful := correspondence_faithful hnonces hd hc
  have hstart : (correspondence nonces c d).Searches .plain { flows := d } { flows := e } :=
    ⟨hflows, .nil, .nil, .nil⟩
  have hsame := (hfaithful.detect limit v hstart).2
  rw [hpaths] at hsame
  generalize (detect (.hiddenBy c.label) limit v { flows := e }).1 = o at hsame
  cases hsame with
  | @ok _ sealed hlists =>
    refine ⟨sealed, mapM_eq_ok (hlists.imp fun p p' hp => ?_), rfl⟩
    exact mapM_eq_ok (hp.imp fun t t' ht => ht.2)

def recordedAgain : List (Special × Nat) :=
  [(.input, 0x3b7dd15bcf9a906e7fa44ff8adf6df6bc075840ea449e3f852d36295cf12ffec),
    (.sink .xss, 0xb0bd88e71dc0b19d15273dac495d766d3ee43f24b9ae76e6b9a559fee90e5762),
    (.sanitizer .xss, 0x7fef91076ec8104468fa9d060a26b1ab6fa75c662bbe15cfbfb54a09c8e7b563),
    (.sink .sqli, 0x7545a5da6a6a14c69cd04f807d887cde1e98e73ec90baea8801262de21e7096e),
    (.sanitizer .sqli, 0x50f4d6b62e706772285d3e751fa731fffa1b343796fc2fc8ab80cf0fcb2c8c8e),
    (.call, 0xcc50c96a52a3decb00332e27580465341aff1057ec8041d03335a02d9148cd41),
    (.result, 0x0bc859faa81296bb6242582127b10b3d9492858aa05aade78f04dcbdbfab8a43),
    (.params, 0x8fef5e1bf50ec9b7fa63be7d88e022f84922665ee59a31d597d4dee149c5afb9),
    (.imports, 0x74e875aa2bfa0689c7b533b640ff4b48450ccb7bd388eb8246a29cfa2e5e0958)]

/-- The names of the sample, sealed under the password `secret`, and the hashes of what they are
sealed to. -/
def recordedNames : List (String × Nat × Nat) :=
  [("page", 0xcc64fe41e7fdcbfc0e9ef7537669e076d3be8c9ec634758084e3177e392c1567cd * 2 ^ 264 +
        0x3dc1a4c01753b05b3475eb76ff77e8406a457f1701bb5753a025cd5d13dba11140,
      0x1b9844f0821b54108482968525e6e0f260a5b019732a515e02cfad83bdbe6db1),
    ("f", 0x211de19b7857e2196858cbab0ffbe46785a3778ebdb8284591e9bce60481894b8c * 2 ^ 264 +
        0xc28501853f39e05641bd021c3c896d7443c8e4fe2b05e6674a3446c8c4e0e9aabd,
      0xa795e98acf0619eaf4f1e4dcc411814d34889e88657e6e1887c3b5818a07eeed),
    ("library", 0xc8d510da075d34e07f2069e0c0e8632bed8e5bb51cb29304829a2ac894727b94d0 * 2 ^ 264 +
        0xea7441332ad11b7fd0e637c22795e4ceb16d667b02eff0b18e15e6ca3d63909ead,
      0xf23548aa0e547dbb4f0a44282964e819e25a0ead54635dfaa3da4d44eae6b471),
    ("VAR1", 0x18e05927ac0ce420c7e1b5283da69f00590532498dd949d8bd467820bf0d935bcc * 2 ^ 264 +
        0xc9b105e4c3a48b97b0a8117fc77a9008271126bfe464f575dd90bf177a8fe22882,
      0x4dc9a5ad26c84e5d73b3394071b1ae8d7362c145a7286a8ce878049344a6b3e6),
    ("1", 0xa8737ac01093d02c60de2a21cb6448db112c9f4981c9be4491014c7874a07e2ecd * 2 ^ 264 +
        0x9e3c00ce0af3fdd029e2cc0a9963d67e9b10d44d21bbe6d3c2e812af68e77ff376,
      0x0f23e544d4f4ba0a9fdae44a3eeadc1ad78f4722ff951cc8edf7244364b55f0f),
    ("0", 0x25f75e6609baf6c0e808d2c60fd3f4a1c747358d5bffee231d49bece8a28cf65be * 2 ^ 264 +
        0xb9a6ff486fd7de8770935a0b29e2a7b1439f69d84281fbf157e5fa013e22d87d63,
      0xa7ac96fa6c3ebafc65b397312d03fddc896f6e3db0179e5bc7cc1d05ad3272e1)]

def recordedTable : List (String × Nat) :=
  recordedHashes ++ recordedAgain.map (fun e => (recordedLabel e.1.name, e.2)) ++
    recordedNames.map fun e => (Base64.encode (Bytes.ofNat 66 e.2.1), e.2.2)

def recordedNumber (n : Int) : Int :=
  if n < 5 then 340949 + n
  else if n < 10 then 811137 + (n - 5)
  else if n < 20 then 1084360 + (n - 10)
  else if n < 50 then 2092815 + (n - 20)
  else if n < 52 then 4096573 + (n - 50)
  else 4309365 + (n - 52)

/-- The ciphers of the passwords `secret` and `shared`, as far as the sample needs them. -/
def recordedCiphers : Ciphers where
  labelBytes s := hashBytes ((recordedTable.lookup s).getD 0)
  nameBytes s := .ok (Bytes.ofNat 66 (((recordedNames.lookup s).map Prod.fst).getD 0))
  number n := .ok (recordedNumber n)
  fileKey := Bytes.ofNat 32 0x2bb80d537b1da3e38bd30361aa855686bde0eacd7162fef6a25fe97bf527a25b

theorem exists_lookup {β : Type} {t : List (String × β)} {s : String} (h : s ∈ t.map Prod.fst) :
    ∃ b, t.lookup s = some b ∧ (s, b) ∈ t := by
  induction t with
  | nil => simp at h
  | cons e t ih =>
    obtain ⟨k, b⟩ := e
    by_cases hk : s = k
    · subst hk
      exact ⟨b, by simp, List.mem_cons_self⟩
    · obtain ⟨b', hb, hmem⟩ := ih (by simpa [hk] using h)
      refine ⟨b', ?_, List.mem_cons_of_mem _ hmem⟩
      rw [List.lookup_cons, beq_false_of_ne hk]
      exact hb

theorem special_recorded (p : Special) : p.name ∈ recordedHashes.map Prod.fst ∧
    p ∈ recordedAgain.map Prod.fst := by
  rcases p with _ | v | v | _ | _ | _ | _ <;> (try cases v) <;> decide +kernel

theorem recordedCiphers_label (p : Special) : recordedCiphers.label p.name = recordedLabel p.name := by
  obtain ⟨n, hn, -⟩ := exists_lookup (special_recorded p).1
  simp only [Ciphers.label, recordedCiphers, recordedLabel, recordedTable, List.append_assoc,
    List.lookup_append, hn, Option.some_or]

theorem mem_recordedTable {x : String} (h : recordedCiphers.Labelled sharedSample.sealedNames x) :
    x ∈ recordedTable.map Prod.fst := by
  have hname : ∀ s ∈ sharedSample.sealedNames, s ∈ recordedNames.map Prod.fst := by decide +kernel
  simp only [recordedTable, List.map_append, List.mem_append, List.map_map]
  rcases h with ⟨p, rfl⟩ | ⟨p, rfl⟩ | ⟨s, hs, hx⟩
  · exact .inl (.inl (special_recorded p).1)
  · obtain ⟨e, he, rfl⟩ := List.mem_map.mp (special_recorded p).2
    exact .inl (.inr (List.mem_map.mpr ⟨e, he, (recordedCiphers_label e.1).symm⟩))
  · obtain ⟨b, hb, hmem⟩ := exists_lookup (hname s hs)
    refine .inr (List.mem_map.mpr ⟨(s, b), hmem, ?_⟩)
    simpa [recordedCiphers, Ciphers.name, hb, Except.map] using hx

theorem length_hashBytes (n : Nat) : (hashBytes n).length = 64 := by
  simp [hashBytes, Bytes.ofAscii, Bytes.length_hex, Bytes.length_ofNat]

theorem recordedCiphers_sound : recordedCiphers.Sound sharedSample.sealedNames where
  fileKey := by decide
  name_total s _ := ⟨_, rfl⟩
  name_inj s hs t ht h := by
    have hknown : ∀ s ∈ sharedSample.sealedNames, s ∈ recordedNames.map Prod.fst := by decide +kernel
    have hnodup : ((recordedNames.map Prod.fst).map fun s =>
        (Bytes.ofNat 66 (((recordedNames.lookup s).map Prod.fst).getD 0)).take 2).Nodup := by
      decide +kernel
    have hbytes := Base64.encode_injective (Except.ok.inj h)
    exact List.inj_on_of_nodup_map hnodup (hknown s hs) (hknown t ht) (by rw [hbytes])
  label_inj x y hx hy h := by
    have hnodup : (recordedTable.map fun e => (hashBytes e.2).take 4).Nodup := by decide +kernel
    obtain ⟨m, hm, hmem⟩ := exists_lookup (mem_recordedTable hx)
    obtain ⟨n, hn, hmem'⟩ := exists_lookup (mem_recordedTable hy)
    have hbytes := Base64.encode_injective h
    simp only [recordedCiphers, hm, hn, Option.getD_some] at hbytes
    exact congrArg Prod.fst (List.inj_on_of_nodup_map hnodup hmem hmem' (by rw [hbytes]))
  apart s _ p h := by
    have hbytes := Base64.encode_injective (Except.ok.inj h)
    have hlen := congrArg List.length hbytes
    simp [recordedCiphers, Bytes.length_ofNat, length_hashBytes] at hlen
  number_total n _ := ⟨_, rfl⟩
  number_lt m n x y _ _ h hx hy := by
    cases hx
    cases hy
    unfold recordedNumber
    split_ifs <;> omega

theorem sharedSample_sealable : sharedSample.Sealable := by
  constructor <;> decide +kernel

theorem detect_sealed_shared : sharedSample.Sealable ∧
    recordedCiphers.Sound sharedSample.sealedNames ∧
    ∃ e n paths sealed,
      sealStructure (Bytes.ofNat 16) recordedCiphers sharedSample 0 = (.ok e, n) ∧
      (detect .plain ⟨20, 20⟩ .xss { flows := sharedSample }).1 = .ok paths ∧
      (paths.map fun p => p.map Token.pos) = [[50, 20, 52]] ∧
      paths.mapM (fun p =>
        p.mapM (sealAt (Bytes.ofNat 16) recordedCiphers sharedSample.occurrences)) = .ok sealed ∧
      (detect (.hiddenBy recordedCiphers.label) ⟨20, 20⟩ .xss { flows := e }).1 = .ok sealed := by
  have hd := sharedSample_sealable
  have hc := recordedCiphers_sound
  obtain ⟨e, n, hseal, hdetect⟩ :=
    detect_sealed (Bytes.ofNat 16) (Bytes.length_ofNat 16) recordedCiphers sharedSample hd hc
  have hfound : (detect .plain ⟨20, 20⟩ .xss { flows := sharedSample }).1.toOption.map
      (fun ps => ps.map fun p => p.map Token.pos) = some [[50, 20, 52]] := by decide +kernel
  cases hplain : (detect .plain ⟨20, 20⟩ .xss { flows := sharedSample }).1 with
  | error err =>
    rw [hplain] at hfound
    cases hfound
  | ok paths =>
    rw [hplain] at hfound
    obtain ⟨sealed, hsealed, hhidden⟩ := hdetect ⟨20, 20⟩ .xss paths hplain
    exact ⟨hd, hc, e, n, paths, sealed, hseal, rfl, Option.some.inj hfound, hsealed, hhidden⟩

end Search

end MaskedTaint
