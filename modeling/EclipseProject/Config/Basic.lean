import EclipseProject.Config.BuildPlan

/-!
# The configuration

Which bazel is run, what it builds and where its products lie.
-/

namespace EclipseProject

structure Config where
  bazel : String
  defaultProjectName : String
  build : BuildPlan
  depsJar : String
  annotationProcessorsJar : String
  aptGenSrcDir : String
  deriving DecidableEq, Repr

namespace Config

def default : Config where
  bazel := "bazel"
  defaultProjectName := "domain-registry"
  build := ⟨[("project", ["//java/google/registry/...", "//javatests/google/registry/..."]),
    ("eclipse_deps", ["//java/google/registry/eclipse:eclipse_deps"]),
    ("annotation_processors", ["//java/google/registry/eclipse:annotation_processors_ide_deploy.jar"])],
    by decide⟩
  depsJar := "java/google/registry/eclipse/eclipse_deps.jar"
  annotationProcessorsJar := "java/google/registry/eclipse/annotation_processors_ide_deploy.jar"
  aptGenSrcDir := "autogenerated"

end Config

end EclipseProject
