/-! # Tokens of a file

The units a YAML text is made of. Blocks that are marked by indentation alone have tokens for their
start and end too, so that the nodes of a file can be read from its tokens without regard to
columns.
-/

namespace NetLowering.Yaml

inductive TokenKind where
  | documentStart
  | documentEnd
  | versionDirective
  | blockSequence
  | blockMapping
  | blockEnd
  | flowSequence
  | flowSequenceEnd
  | flowMapping
  | flowMappingEnd
  | item
  | comma
  | key
  | value
  | anchor (name : String)
  | alias (name : String)
  | tag (name : String)
  | scalar (text : String) (plain : Bool)
  | streamEnd
deriving DecidableEq

/-- A token, with the lines it starts and ends on. -/
structure Token where
  kind : TokenKind
  line : Nat
  endLine : Nat
deriving DecidableEq

/-- The tokens of a text, up to its end or, if it is not `complete`, up to something that starts no
token. -/
structure TokenStream where
  tokens : List Token
  complete : Bool

end NetLowering.Yaml
