import CrashCourier.Settings.Yaml

/-!
# Writing settings files

All settings are written, texts in double quotes. `Settings.isStable` says that the file that is
written is read as the settings it was written from.
-/

namespace CrashCourier

/-- How a text in double quotes writes one character. -/
def Yaml.quoteChar (c : Char) : List Char :=
  if c = '"' ∨ c = '\\' then ['\\', c]
  else if ' ' ≤ c ∧ c ≤ '~' then [c]
  else '\\' :: 'U' :: Text.hex 8 c.toNat

/-- A text in double quotes. -/
def Yaml.quoted (s : String) : List Char :=
  '"' :: s.toList.flatMap quoteChar ++ ['"']

namespace Settings

/-- The lines of a settings file. -/
def yamlLines (s : Settings) : List (List Char) :=
  let line (name : String) (value : List Char) : List Char := name.toList ++ ':' :: ' ' :: value
  let header (entry : String × String) : List (List Char) :=
    ["    ? ".toList ++ Yaml.quoted entry.1, "    : ".toList ++ Yaml.quoted entry.2]
  ["collector:".toList,
    line "  url" (Yaml.quoted s.collector.url),
    line "  method" s.collector.method.name.toList] ++
  (match s.collector.headers.entries with
    | [] => ["  headers: \x7b\x7d".toList]
    | entries => "  headers:".toList :: entries.flatMap header) ++
  [line "  timeout_secs" (toString s.collector.timeoutSecs.toNat).toList,
    line "  attachment_key" (Yaml.quoted s.collector.attachmentKey),
    "store:".toList,
    line "  bundle_id" (Yaml.quoted s.store.bundleId),
    line "  base_path" (Yaml.quoted s.store.basePath),
    "logging:".toList,
    line "  level" (Yaml.quoted s.logging.level)]

/-- The text of a settings file. -/
def toYaml (s : Settings) : List Char :=
  s.yamlLines.flatMap (· ++ ['\n'])

/-- Whether the file that is written is read as the same settings. -/
def isStable (usual s : Settings) : Bool :=
  match ofYaml usual s.toYaml with
  | .ok s' => s' = s
  | .error _ => false

end Settings

end CrashCourier
