import DelayInjection.Config.Document
import DelayInjection.Toml.Document

namespace DelayInjection.RuntimeConfig

def ofToml (text : String) : Except ConfigError RuntimeConfig := do
  let datum ← match Toml.document? text with
    | some datum => .ok datum
    | none => .error (.parse "the document is not well-formed")
  let config ← (decode .toml datum).mapError fun e => .parse e.message
  config.validate
  return config

def ofTomlFile (path : String) (content : Except FileError String) :
    Except ConfigError RuntimeConfig := do
  let text ← content.mapError (.io path)
  ofToml text

end DelayInjection.RuntimeConfig
